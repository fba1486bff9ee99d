/-
The scheduler of Lab02 on any number of bursts.

Whatever `ACTIVE_THREADS` says, the resource semaphore does its work: as long as it is there, its
value and the clients that use a resource make `NUM_RESOURCES`, and there are never more of them.
The clients take turns at it and come to their end, unless `main` destroys it before.

* `limits` — the limit on the resources and on the section of `sem_exit` in every reachable state;
* `exists_moves` — as long as `main` has not left its wait, one of the clients that are not done can
  move;
* `exits_or_spins` — `main` exits, or all clients are done and it waits for ever.
-/
import SistemiDiCalcolo.BurstSchedulerCounter
import SistemiDiCalcolo.Fairness

open Function (update)
open Machine

namespace BurstScheduler

variable {n : ℕ} {s s' : State n} {t : Agent n} {k : Fin n}

/-- 1 while the client uses a resource. -/
def ClientPc.working : ClientPc → ℕ
  | .firstWorking _ | .secondWorking _ => 1
  | _ => 0

/-- The permits of `sem_exit` that `main` holds. -/
def MainPc.permits : MainPc → ℕ
  | .spinning | .destroy | .postExit => 1
  | _ => 0

/-- `main` has destroyed the resource semaphore. -/
def MainPc.Destroyed : MainPc → Prop
  | .postExit | .destroyExit | .exited => True
  | _ => False

/-! ### The permits -/

/-- Every permit of `sem_exit` is there, or held by a client or by `main`. -/
def Permits (s : State n) : Prop :=
  ∀ v, s.shared.semExit = some v →
    v + tally ClientPc.inside s.client + s.main.permits = THREAD_BURST

theorem Permits.client {s : State n} (hs : Permits s) {k : Fin n} {g : Shared} {pc : ClientPc}
    (h : ExitStep s.shared.semExit (s.client k) pc g.semExit) :
    Permits { s with shared := g, client := update s.client k pc } := by
  intro v hv
  have hin := tally_update ClientPc.inside s.client k pc
  show v + tally ClientPc.inside (update s.client k pc) + s.main.permits = THREAD_BURST
  have hv : g.semExit = some v := hv
  generalize hk : s.client k = pc₀ at h hin
  generalize hg : g.semExit = exit at h hv
  cases h with
  | other hsame _ =>
    rw [hsame] at hin
    rw [Nat.add_right_cancel hin]
    exact hs v hv
  | enter w hexit =>
    obtain rfl := Option.some.inj hv
    have hbefore := hs _ hexit
    have hone : tally ClientPc.inside (update s.client k .loadActive) + 0
        = tally ClientPc.inside s.client + 1 := hin
    omega
  | leave w hexit =>
    obtain rfl := Option.some.inj hv
    have hbefore := hs _ hexit
    have hone : tally ClientPc.inside (update s.client k .done) + 1
        = tally ClientPc.inside s.client + 0 := hin
    omega

/-- After its wait `main` gives its permit back, before it destroys the semaphore. -/
theorem Permits.cleanUp {s s' : State n} (hs : Permits s) (hleft : s.main.Left)
    (h : BurstScheduler.main s = some s') : Permits s' := by
  cases hpc : s.main with
  | destroy =>
    simp only [BurstScheduler.main, hpc] at h
    cases h
    intro v hv
    have hbefore := hs v hv
    rw [hpc] at hbefore
    exact hbefore
  | postExit =>
    simp only [BurstScheduler.main, hpc] at h
    obtain ⟨sem', hsem, heq⟩ := Option.map_eq_some_iff.mp h
    obtain ⟨w, hexit, rfl⟩ := semPost_eq_some hsem
    cases heq
    intro v hv
    obtain rfl := Option.some.inj hv
    have hbefore : w + tally ClientPc.inside s.client + s.main.permits = THREAD_BURST :=
      hs w hexit
    rw [hpc] at hbefore
    -- the permit that `main` took before its wait
    have hone : MainPc.postExit.permits = 1 := rfl
    show w + 1 + tally ClientPc.inside s.client + 0 = THREAD_BURST
    omega
  | destroyExit =>
    simp only [BurstScheduler.main, hpc] at h
    cases h
    intro v hv
    cases hv
  | getchar | spawn i | waitExit | spinning =>
    rw [hpc] at hleft
    exact hleft.elim
  | exited =>
    simp only [BurstScheduler.main, hpc] at h
    cases h

theorem Permits.main {s s' : State n} (hs : Permits s) (hcreated : Created s)
    (h : main s = some s') : Permits s' := by
  cases main_step h with
  | create i hlt hpc hi =>
    intro v hv
    have hbefore := hs v hv
    rw [hpc] at hbefore
    show v + tally ClientPc.inside (update s.client ⟨s.threadId, hlt⟩ (.first 0)) + 0 = THREAD_BURST
    rw [inside_create hcreated hlt]
    exact hbefore
  | inputOver hpc _ | skip _ _ hpc _ _ | burst _ hpc _ | burstOver _ hpc _ | leave hpc _ =>
    intro v hv
    have hbefore := hs v hv
    rw [hpc] at hbefore
    exact hbefore
  | spin _ _ => exact hs
  | enter sem hpc hsem =>
    obtain ⟨w, hexit, rfl⟩ := semWait_eq_some hsem
    intro v hv
    obtain rfl := Option.some.inj hv
    have hbefore : w + 1 + tally ClientPc.inside s.client + s.main.permits = THREAD_BURST :=
      hs _ hexit
    rw [hpc] at hbefore
    have hnone : MainPc.waitExit.permits = 0 := rfl
    show w + tally ClientPc.inside s.client + 1 = THREAD_BURST
    omega
  | cleanUp _ _ _ hleft _ => exact hs.cleanUp hleft h

/-! ### The limit -/

/-- What a step of a client does to the resources: nothing, or it takes one or gives it back. -/
theorem client_resources {g g' : Shared} {pc pc' : ClientPc} (h : client g pc = some (g', pc')) :
    g'.semaphore = g.semaphore ∧ pc'.working = pc.working ∨
      (∃ v, g.semaphore = some (v + 1) ∧ g'.semaphore = some v ∧ pc.working = 0 ∧
        pc'.working = 1) ∨
      ∃ v, g.semaphore = some v ∧ g'.semaphore = some (v + 1) ∧ pc.working = 1 ∧
        pc'.working = 0 := by
  cases pc with
  | absent | done => cases h
  | first i | second i =>
    rw [client] at h
    split_ifs at h
    · obtain ⟨sem, hsem, heq⟩ := Option.map_eq_some_iff.mp h
      obtain ⟨v, hv, rfl⟩ := semWait_eq_some hsem
      cases heq
      exact .inr (.inl ⟨v, hv, rfl, rfl, rfl⟩)
    · cases h
      exact .inl ⟨rfl, rfl⟩
  | firstWorking i | secondWorking i =>
    obtain ⟨sem, hsem, heq⟩ := Option.map_eq_some_iff.mp h
    obtain ⟨v, hv, rfl⟩ := semPost_eq_some hsem
    cases heq
    exact .inr (.inr ⟨v, hv, rfl, rfl, rfl⟩)
  | waitExit | postExit =>
    obtain ⟨sem, -, heq⟩ := Option.map_eq_some_iff.mp h
    cases heq
    exact .inl ⟨rfl, rfl⟩
  | loadActive | storeActive x =>
    cases h
    exact .inl ⟨rfl, rfl⟩

/-- A client destroys nothing. -/
theorem ExitStep.none_iff {exit exit' : Option ℕ} {pc pc' : ClientPc}
    (h : ExitStep exit pc pc' exit') : exit' = none ↔ exit = none := by
  cases h with
  | other _ _ => exact Iff.rfl
  | enter v hv | leave v hv =>
    rw [hv]
    exact iff_of_false (Option.some_ne_none _) (Option.some_ne_none _)

theorem main_ne_exited (h : main s = some s') : s.main ≠ .exited := by
  intro hpc
  rw [main, hpc] at h
  cases h

/-- What a step of `main` does to the clients and to the two semaphores: it destroys each of them
once. -/
theorem main_semaphores (hs : Created s) (h : main s = some s') :
    (tally ClientPc.working s'.client = tally ClientPc.working s.client ∧
      tally ClientPc.inside s'.client = tally ClientPc.inside s.client) ∧
      (s'.shared.semaphore = s.shared.semaphore ∧ (s'.main.Destroyed ↔ s.main.Destroyed) ∨
        s'.shared.semaphore = none ∧ s'.main.Destroyed) ∧
      ((s'.shared.semExit = none ↔ s.shared.semExit = none) ∧ s'.main ≠ .exited ∨
        s'.shared.semExit = none ∧ s'.main = .exited) := by
  cases hpc : s.main with
  | destroy =>
    simp only [main, hpc] at h
    cases h
    exact ⟨⟨rfl, rfl⟩, .inr ⟨rfl, trivial⟩, .inl ⟨Iff.rfl, MainPc.noConfusion⟩⟩
  | postExit =>
    simp only [main, hpc] at h
    obtain ⟨sem, hsem, heq⟩ := Option.map_eq_some_iff.mp h
    obtain ⟨w, hw, rfl⟩ := semPost_eq_some hsem
    cases heq
    refine ⟨⟨rfl, rfl⟩, .inl ⟨rfl, Iff.rfl⟩, .inl ⟨?_, MainPc.noConfusion⟩⟩
    rw [hw]
    exact iff_of_false (Option.some_ne_none _) (Option.some_ne_none _)
  | destroyExit =>
    simp only [main, hpc] at h
    cases h
    exact ⟨⟨rfl, rfl⟩, .inl ⟨rfl, Iff.rfl⟩, .inr ⟨rfl, rfl⟩⟩
  | exited => exact absurd hpc (main_ne_exited h)
  | getchar | spawn i | waitExit | spinning =>
    cases main_step h with
    | create i hlt _ _ =>
      -- a client begins outside of both sections
      have hwork := tally_update ClientPc.working s.client ⟨s.threadId, hlt⟩ (.first 0)
      rw [hs.spawned.eq_absent hlt] at hwork
      exact ⟨⟨Nat.add_right_cancel hwork, inside_create hs hlt⟩, .inl ⟨rfl, Iff.rfl⟩,
        .inl ⟨Iff.rfl, MainPc.noConfusion⟩⟩
    | enter sem _ hsem =>
      obtain ⟨w, hw, rfl⟩ := semWait_eq_some hsem
      refine ⟨⟨rfl, rfl⟩, .inl ⟨rfl, Iff.rfl⟩, .inl ⟨?_, MainPc.noConfusion⟩⟩
      rw [hw]
      exact iff_of_false (Option.some_ne_none _) (Option.some_ne_none _)
    | cleanUp sem exit pc hleft _ =>
      rw [hpc] at hleft
      exact hleft.elim
    | inputOver _ _ | skip _ _ _ _ _ | burst _ _ _ | burstOver _ _ _ | leave _ _ =>
      exact ⟨⟨rfl, rfl⟩, .inl ⟨rfl, Iff.rfl⟩, .inl ⟨Iff.rfl, MainPc.noConfusion⟩⟩
    | spin _ _ =>
      refine ⟨⟨rfl, rfl⟩, .inl ⟨rfl, by rw [hpc]⟩, .inl ⟨Iff.rfl, ?_⟩⟩
      rw [hpc]
      exact MainPc.noConfusion

/-- The resources and the section of `sem_exit`, with who has destroyed a semaphore. -/
structure Limits (s : State n) : Prop where
  resources : ∀ v, s.shared.semaphore = some v →
    v + tally ClientPc.working s.client = NUM_RESOURCES
  working : tally ClientPc.working s.client ≤ NUM_RESOURCES
  permits : Permits s
  inside : tally ClientPc.inside s.client ≤ THREAD_BURST
  semaphore : s.shared.semaphore = none ↔ s.main.Destroyed
  semExit : s.shared.semExit = none ↔ s.main = .exited

theorem MainPc.Destroyed.left {pc : MainPc} (h : pc.Destroyed) : pc.Left := by
  cases pc with
  | postExit | destroyExit | exited => trivial
  | getchar | spawn i | waitExit | spinning | destroy => exact h.elim

theorem Limits.exists_semaphore (hs : Limits s) (h : ¬ s.main.Left) :
    ∃ v, s.shared.semaphore = some v :=
  Option.ne_none_iff_exists'.mp fun hnone => h (hs.semaphore.mp hnone).left

theorem Limits.exists_semExit (hs : Limits s) (h : s.main ≠ .exited) :
    ∃ v, s.shared.semExit = some v :=
  Option.ne_none_iff_exists'.mp fun hnone => h (hs.semExit.mp hnone)

theorem limits_start {input : List Char} :
    Limits (start input : State (THREAD_BURST * bursts input)) := by
  have hworking : tally ClientPc.working
      (start input : State (THREAD_BURST * bursts input)).client = 0 :=
    tally_eq_zero.mpr fun _ => rfl
  have hinside : tally ClientPc.inside
      (start input : State (THREAD_BURST * bursts input)).client = 0 :=
    tally_eq_zero.mpr fun _ => rfl
  refine ⟨?_, hworking.le.trans (Nat.zero_le _), ?_, hinside.le.trans (Nat.zero_le _),
    iff_of_false (Option.some_ne_none _) id,
    iff_of_false (Option.some_ne_none _) MainPc.noConfusion⟩
  · rintro v hv
    cases hv
    rw [hworking, Nat.add_zero]
  · rintro v hv
    cases hv
    rw [hinside]
    rfl

/-- Nobody enters the section without a permit. -/
theorem Limits.inside_client {g : Shared} {pc : ClientPc} (hs : Limits s)
    (h : ExitStep s.shared.semExit (s.client k) pc g.semExit) :
    tally ClientPc.inside (update s.client k pc) ≤ THREAD_BURST := by
  have hin := tally_update ClientPc.inside s.client k pc
  have hle := hs.inside
  generalize hk : s.client k = pc₀ at h hin
  generalize g.semExit = exit at h
  cases h with
  | other hsame _ =>
    rw [hsame] at hin
    omega
  | enter v hexit =>
    have hsum := hs.permits _ hexit
    have hone : tally ClientPc.inside (update s.client k .loadActive) + 0
        = tally ClientPc.inside s.client + 1 := hin
    omega
  | leave v _ =>
    have hone : tally ClientPc.inside (update s.client k .done) + 1
        = tally ClientPc.inside s.client + 0 := hin
    omega

theorem Limits.client {g : Shared} {pc : ClientPc} (hs : Limits s)
    (h : client s.shared (s.client k) = some (g, pc)) :
    Limits { s with shared := g, client := update s.client k pc } := by
  have hwork := tally_update ClientPc.working s.client k pc
  have hworking := hs.working
  have hexit := client_exit_step h
  refine ⟨?_, ?_, hs.permits.client hexit, hs.inside_client hexit, ?_, ?_⟩
  · intro v (hv : g.semaphore = some v)
    show v + tally ClientPc.working (update s.client k pc) = NUM_RESOURCES
    -- it leaves the semaphore alone, takes a resource, or gives one back
    rcases client_resources h with ⟨hsem, hsame⟩ | ⟨w, hw, hsem, h₀, h₁⟩ | ⟨w, hw, hsem, h₁, h₀⟩
    · have hbefore := hs.resources v (hsem.symm.trans hv)
      omega
    · have hbefore := hs.resources _ hw
      obtain rfl := Option.some.inj (hsem.symm.trans hv)
      omega
    · have hbefore := hs.resources _ hw
      obtain rfl := Option.some.inj (hsem.symm.trans hv)
      omega
  · show tally ClientPc.working (update s.client k pc) ≤ NUM_RESOURCES
    rcases client_resources h with ⟨-, hsame⟩ | ⟨w, hw, -, h₀, h₁⟩ | ⟨w, -, -, h₁, h₀⟩
    · omega
    · have hbefore := hs.resources _ hw
      omega
    · omega
  · rw [← hs.semaphore]
    show g.semaphore = none ↔ _
    rcases client_resources h with ⟨hsem, -⟩ | ⟨w, hw, hsem, -⟩ | ⟨w, hw, hsem, -⟩
    · rw [hsem]
    · rw [hsem, hw]
      exact iff_of_false (Option.some_ne_none _) (Option.some_ne_none _)
    · rw [hsem, hw]
      exact iff_of_false (Option.some_ne_none _) (Option.some_ne_none _)
  · rw [← hs.semExit]
    exact hexit.none_iff

theorem Limits.main (hs : Limits s) (hcreated : Created s) (h : main s = some s') :
    Limits s' := by
  obtain ⟨⟨hwork, hinside⟩, hsem, hexit⟩ := main_semaphores hcreated h
  refine ⟨?_, hwork.le.trans hs.working, hs.permits.main hcreated h, hinside.le.trans hs.inside,
    ?_, ?_⟩
  · intro v hv
    rcases hsem with ⟨hsame, -⟩ | ⟨hnone, -⟩
    · rw [hwork]
      exact hs.resources v (hsame.symm.trans hv)
    · rw [hnone] at hv
      cases hv
  · rcases hsem with ⟨hsame, hmain⟩ | ⟨hnone, hdestroyed⟩
    · rw [hsame, hmain]
      exact hs.semaphore
    · exact iff_of_true hnone hdestroyed
  · rcases hexit with ⟨hsame, hne⟩ | ⟨hnone, hexited⟩
    · rw [hsame, hs.semExit]
      exact iff_of_false (main_ne_exited h) hne
    · exact iff_of_true hnone hexited

/-- Which clients exist, and the limits. -/
structure Bounded (s : State n) : Prop where
  created : Created s
  limits : Limits s

theorem Bounded.step (hs : Bounded s) (h : step s t = some s') : Bounded s' := by
  refine ⟨hs.created.step h, ?_⟩
  cases t with
  | main => exact hs.limits.main hs.created h
  | client k =>
    obtain ⟨⟨g, pc⟩, hstep, rfl⟩ := Option.map_eq_some_iff.mp h
    exact hs.limits.client hstep

theorem bounded {input : List Char} {s : State (THREAD_BURST * bursts input)}
    (h : (program input).Reachable s) : Bounded s := by
  refine h.invariant ?_ fun s t s' _ hs hstep => hs.step hstep
  rintro s rfl
  exact ⟨created_start, limits_start⟩

/-- **The limit**: in every reachable state, for any input, no more than `NUM_RESOURCES` clients
use a resource and no more than `THREAD_BURST` are in the section of `sem_exit`; as long as a
semaphore is there, its value is what is left, and only `main` takes it away, at its end. -/
theorem limits (input : List Char) (s : State (THREAD_BURST * bursts input))
    (h : (program input).Reachable s) :
    tally ClientPc.working s.client ≤ NUM_RESOURCES ∧
      tally ClientPc.inside s.client ≤ THREAD_BURST ∧
      (∀ v, s.shared.semaphore = some v → v + tally ClientPc.working s.client = NUM_RESOURCES) ∧
      (∀ v, s.shared.semExit = some v →
        v + tally ClientPc.inside s.client + s.main.permits = THREAD_BURST) ∧
      (s.shared.semaphore = none ↔ s.main.Destroyed) ∧
      (s.shared.semExit = none ↔ s.main = .exited) :=
  have hs := (bounded h).limits
  ⟨hs.working, hs.inside, hs.resources, hs.permits, hs.semaphore, hs.semExit⟩

/-- One line: two clients are in the section and three use a resource, and all is accounted for. -/
theorem limits_busy : ∃ s : State (THREAD_BURST * bursts ['\n']),
    (program ['\n']).Reachable s ∧ s.shared.semaphore = some 0 ∧ s.shared.semExit = some 3 ∧
      0 + tally ClientPc.working s.client = NUM_RESOURCES ∧
      3 + tally ClientPc.inside s.client + s.main.permits = THREAD_BURST := by
  have hrun : (program ['\n']).run (start ['\n']) (List.replicate 6 .main
      ++ List.replicate 13 (.client ⟨0, by decide⟩) ++ List.replicate 13 (.client ⟨1, by decide⟩)
      ++ [.client ⟨2, by decide⟩, .client ⟨3, by decide⟩, .client ⟨4, by decide⟩])
      = some _ := rfl
  have hreach := (Machine.Reachable.init (M := program ['\n']) rfl).run hrun
  obtain ⟨-, -, hresources, hpermits, -⟩ := limits ['\n'] _ hreach
  exact ⟨_, hreach, rfl, rfl, hresources 0 rfl, hpermits 3 rfl⟩

/-! ### Nobody waits for ever -/

/-- The steps that a client has before it, at most. -/
def ClientPc.left : ClientPc → ℕ
  | .absent => 30
  | .first i => 14 + 2 * (NUM_TASKS - i)
  | .firstWorking i => 15 + 2 * (NUM_TASKS - (i + 2))
  | .second i => 6 + 2 * (NUM_TASKS - i)
  | .secondWorking i => 7 + 2 * (NUM_TASKS - (i + 1))
  | .waitExit => 5
  | .loadActive => 4
  | .storeActive _ => 3
  | .postExit => 2
  | .done => 0

/-- The steps that `main` has before it, up to its wait on the counter. -/
def MainPc.left (input : List Char) : MainPc → ℕ
  | .getchar => input.length + 8 * bursts input + 2
  | .spawn i => input.length + 8 * bursts input + 3 + (THREAD_BURST - i)
  | .waitExit => 1
  | _ => 0

/-- What is left of the program, but for the waiting and the end of `main`. -/
def left (s : State n) : ℕ := s.main.left s.input + tally ClientPc.left s.client

theorem client_left {g g' : Shared} {pc pc' : ClientPc} (h : client g pc = some (g', pc')) :
    pc'.left < pc.left := by
  cases pc with
  | absent | done => cases h
  | first i | second i =>
    rw [client] at h
    split_ifs at h with hi
    · obtain ⟨sem, -, heq⟩ := Option.map_eq_some_iff.mp h
      cases heq
      simp only [ClientPc.left, NUM_TASKS] at hi ⊢
      omega
    · cases h
      simp only [ClientPc.left, NUM_TASKS] at hi ⊢
      omega
  | firstWorking i | secondWorking i | waitExit | postExit =>
    obtain ⟨sem, -, heq⟩ := Option.map_eq_some_iff.mp h
    cases heq
    simp only [ClientPc.left, NUM_TASKS]
    omega
  | loadActive | storeActive x =>
    cases h
    simp only [ClientPc.left]
    omega

/-- A step of `main` brings it nearer to its wait, or it waits, or it has left. -/
theorem main_left (hs : Created s) (h : main s = some s') :
    left s' < left s ∨ s.main = .spinning ∧ s' = s ∨ s'.main.Left := by
  cases main_step h with
  | inputOver hpc hinput =>
    left
    simp only [left, hpc, hinput, MainPc.left]
    omega
  | skip c input hpc hinput hc =>
    left
    simp only [left, hpc, hinput, MainPc.left, List.length_cons, bursts, List.count_cons_of_ne hc]
    omega
  | burst input hpc hinput =>
    left
    simp only [left, hpc, hinput, MainPc.left, List.length_cons, bursts, List.count_cons_self,
      THREAD_BURST]
    omega
  | create i hlt hpc hi =>
    left
    -- the client has all its steps before it, and one less than when it was absent
    have hleft := tally_update ClientPc.left s.client ⟨s.threadId, hlt⟩ (.first 0)
    rw [hs.spawned.eq_absent hlt] at hleft
    have hfirst : (ClientPc.first 0).left < ClientPc.absent.left := by decide
    simp only [left, hpc, MainPc.left]
    omega
  | burstOver i hpc hi =>
    left
    simp only [left, hpc, MainPc.left]
    omega
  | enter sem hpc hsem =>
    left
    simp only [left, hpc, MainPc.left]
    omega
  | spin hpc _ => exact .inr (.inl ⟨hpc, rfl⟩)
  | leave _ _ => exact .inr (.inr trivial)
  | cleanUp _ _ _ _ hpc => exact .inr (.inr hpc)

/-- The client can move. -/
def Moves (s : State n) (k : Fin n) : Prop := client s.shared (s.client k) ≠ none

/-- A client that uses a resource can give it back. -/
theorem moves_of_working (hs : Bounded s) (hleft : ¬ s.main.Left)
    (h : (s.client k).working ≠ 0) : Moves s k := by
  obtain ⟨v, hv⟩ := hs.limits.exists_semaphore hleft
  cases hk : s.client k with
  | firstWorking i | secondWorking i => simp [Moves, hk, client, hv, semPost]
  | absent | first i | second i | waitExit | loadActive | storeActive x | postExit | done =>
    rw [hk] at h
    exact absurd rfl h

/-- A client in the section of `sem_exit` can go on. -/
theorem moves_of_inside (hs : Bounded s) (hexited : s.main ≠ .exited)
    (h : (s.client k).inside ≠ 0) : Moves s k := by
  obtain ⟨v, hv⟩ := hs.limits.exists_semExit hexited
  cases hk : s.client k with
  | loadActive | storeActive x => simp [Moves, hk, client]
  | postExit => simp [Moves, hk, client, hv, semPost]
  | absent | first i | firstWorking i | second i | secondWorking i | waitExit | done =>
    rw [hk] at h
    exact absurd rfl h

/-- **Nobody is kept out without reason**: as long as `main` has not left its wait, some client
can move if one of them exists and is not done. -/
theorem exists_moves (hs : Bounded s) (hleft : ¬ s.main.Left) (hborn : s.client k ≠ .absent)
    (hdone : s.client k ≠ .done) : ∃ l, Moves s l := by
  have hexited : s.main ≠ .exited := fun h => hleft (by rw [h]; trivial)
  obtain ⟨v, hv⟩ := hs.limits.exists_semaphore hleft
  obtain ⟨w, hw⟩ := hs.limits.exists_semExit hexited
  -- with no resource left, one who has one can move
  have hresource : (∀ u, v = u + 1 → Moves s k) → ∃ l, Moves s l := by
    intro hmoves
    cases v with
    | zero =>
      have hsum := hs.limits.resources 0 hv
      obtain ⟨l, hl⟩ := exists_ne_zero_of_tally (f := ClientPc.working) (g := s.client)
        (by rw [Nat.zero_add] at hsum; rw [hsum]; decide)
      exact ⟨l, moves_of_working hs hleft hl⟩
    | succ u => exact ⟨k, hmoves u rfl⟩
  cases hk : s.client k with
  | absent => exact absurd hk hborn
  | done => exact absurd hk hdone
  | first i | second i =>
    refine hresource fun u hu => ?_
    simp only [Moves, hk, client]
    split_ifs
    · simp [hv, hu, semWait]
    · exact Option.some_ne_none _
  | firstWorking i | secondWorking i =>
    exact ⟨k, moves_of_working hs hleft (by rw [hk]; exact one_ne_zero)⟩
  | loadActive | storeActive x | postExit =>
    exact ⟨k, moves_of_inside hs hexited (by rw [hk]; exact one_ne_zero)⟩
  | waitExit =>
    cases w with
    | zero =>
      have hsum := hs.limits.permits 0 hw
      have hmain : s.main.permits ≤ 1 := by
        cases s.main <;> first | exact le_rfl | exact Nat.zero_le 1
      obtain ⟨l, hl⟩ := exists_ne_zero_of_tally (f := ClientPc.inside) (g := s.client)
        (by simp only [THREAD_BURST] at hsum; omega)
      exact ⟨l, moves_of_inside hs hexited hl⟩
    | succ u => exact ⟨k, by simp [Moves, hk, client, hw, semWait]⟩

/-- `main` reads, creates and waits: it can move before its wait on the counter. -/
theorem main_ne_none (hs : Bounded s) (hleft : ¬ s.main.Left)
    (hexit : s.main = .waitExit → s.shared.semExit ≠ some 0) : main s ≠ none := by
  unfold main
  cases hpc : s.main with
  | getchar =>
    simp only
    split <;> exact Option.some_ne_none _
  | spawn i =>
    have hroom := hs.created.room
    rw [hpc] at hroom
    simp only
    split_ifs with hi hlt
    · exact Option.some_ne_none _
    · simp only [MainPc.toSpawn] at hroom
      omega
    · exact Option.some_ne_none _
  | waitExit =>
    obtain ⟨v, hv⟩ := hs.limits.exists_semExit (by rw [hpc]; nofun)
    cases v with
    | zero => exact absurd hv (hexit hpc)
    | succ v => simp [hv, semWait]
  | spinning =>
    simp only
    split_ifs <;> exact Option.some_ne_none _
  | destroy | postExit | destroyExit | exited =>
    rw [hpc] at hleft
    exact absurd trivial hleft

/-- `main` waits for the counter, and nothing else is left to do. -/
def AllDone (s : State n) : Prop := s.main = .spinning ∧ ∀ k, s.client k = .done

/-- The steps that are not waiting. -/
def brings (s : State n) : Agent n → Prop
  | .main => s.main ≠ .spinning ∧ main s ≠ none
  | .client k => Moves s k

theorem exists_brings (hs : Bounded s) (hleft : ¬ s.main.Left) (hdone : ¬ AllDone s) :
    ∃ t, brings s t := by
  have hclient : (∃ l, Moves s l) → ∃ t, brings s t := fun ⟨l, hl⟩ => ⟨.client l, hl⟩
  by_cases hspin : s.main = .spinning
  · obtain ⟨k, hk⟩ := not_forall.mp fun h => hdone ⟨hspin, h⟩
    have hborn := hs.created.spawned.ne_absent
      (hs.created.threadId_eq (by rw [hspin]; trivial)).ge k
    exact hclient (exists_moves hs hleft hborn hk)
  · by_cases hexit : s.main = .waitExit ∧ s.shared.semExit = some 0
    · have hsum := hs.limits.permits 0 hexit.2
      rw [hexit.1] at hsum
      obtain ⟨l, hl⟩ := exists_ne_zero_of_tally (f := ClientPc.inside) (g := s.client)
        (by simp only [MainPc.permits, THREAD_BURST] at hsum; omega)
      exact hclient ⟨l, moves_of_inside hs (by rw [hexit.1]; nofun) hl⟩
    · exact ⟨.main, hspin, main_ne_none hs hleft fun hpc hsem => hexit ⟨hpc, hsem⟩⟩

section Executions

variable {input : List Char} {e : (program input).Execution}

theorem step_ne_none_of_brings {s : State (THREAD_BURST * bursts input)}
    {t : Agent (THREAD_BURST * bursts input)} (h : brings s t) :
    (program input).step s t ≠ none := by
  cases t with
  | main => exact h.2
  | client k =>
    intro hnone
    exact h (Option.map_eq_none_iff.mp hnone)

/-- Every step brings the end nearer, but for the waiting of `main`. -/
theorem brings_step {s s' : State (THREAD_BURST * bursts input)}
    {t u : Agent (THREAD_BURST * bursts input)} (hs : Bounded s) (ht : brings s t)
    (h : (program input).step s u = some s') :
    s'.main.Left ∨ left s' < left s ∨ left s' = left s ∧ u ≠ t ∧ brings s' t := by
  cases u with
  | main =>
    rcases main_left hs.created h with hlt | ⟨hspin, rfl⟩ | hleft
    · exact .inr (.inl hlt)
    · refine .inr (.inr ⟨rfl, ?_, ht⟩)
      rintro rfl
      exact ht.1 hspin
    · exact .inl hleft
  | client k =>
    obtain ⟨⟨g, pc⟩, hstep, rfl⟩ := Option.map_eq_some_iff.mp h
    have hleft := tally_update ClientPc.left s.client k pc
    have hlt := client_left hstep
    refine .inr (.inl ?_)
    simp only [left]
    omega

/-- `main` leaves its wait, or everybody else comes to an end. -/
theorem leadsTo_left_or_done (hfair : e.Fair fun _ _ => False) :
    e.LeadsTo (fun _ => True) fun s => s.main.Left ∨ AllDone s := by
  refine hfair.leadsTo (μ := left) (H := brings) ?_ ?_ ?_
  · intro s t u s' hr _ hQ ht h
    rcases brings_step (bounded hr) ht h with hleft | hmove
    · exact .inl (.inl hleft)
    · exact .inr ⟨trivial, hmove⟩
  · intro s hr _ hQ
    exact exists_brings (bounded hr) (fun h => hQ (.inl h)) fun h => hQ (.inr h)
  · intro s t _ _ _ ht
    exact ⟨step_ne_none_of_brings ht, id⟩

/-- The steps of `main` after its wait. -/
def MainPc.toExit : MainPc → ℕ
  | .destroy => 3
  | .postExit => 2
  | .destroyExit => 1
  | _ => 0

theorem main_toExit {s s' : State n} (hleft : s.main.Left) (h : main s = some s') :
    s'.main.Left ∧ s'.main.toExit < s.main.toExit := by
  unfold main at h
  cases hpc : s.main with
  | destroy | destroyExit =>
    rw [hpc] at h
    cases h
    exact ⟨trivial, Nat.lt_succ_self _⟩
  | postExit =>
    rw [hpc] at h
    obtain ⟨sem, -, heq⟩ := Option.map_eq_some_iff.mp h
    cases heq
    exact ⟨trivial, Nat.lt_succ_self _⟩
  | exited =>
    rw [hpc] at h
    cases h
  | getchar | spawn i | waitExit | spinning =>
    rw [hpc] at hleft
    exact hleft.elim

theorem main_ne_none_of_left (hs : Bounded s) (hleft : s.main.Left) (hexited : s.main ≠ .exited) :
    main s ≠ none := by
  obtain ⟨v, hv⟩ := hs.limits.exists_semExit hexited
  unfold main
  cases hpc : s.main with
  | destroy | destroyExit => exact Option.some_ne_none _
  | postExit => simp [hv, semPost]
  | exited => exact absurd hpc hexited
  | getchar | spawn i | waitExit | spinning =>
    rw [hpc] at hleft
    exact hleft.elim

/-- Once it has left its wait, `main` exits. -/
theorem leadsTo_exited (hfair : e.Fair fun _ _ => False) :
    e.LeadsTo (fun s => s.main.Left) fun s => s.main = .exited := by
  refine hfair.leadsTo (μ := fun s => s.main.toExit) (H := fun _ t => t = .main) ?_
    (fun _ _ _ _ => ⟨.main, rfl⟩) ?_
  · rintro s - u s' hr hleft - rfl h
    cases u with
    | main =>
      obtain ⟨hleft', hlt⟩ := main_toExit hleft h
      exact .inr ⟨hleft', .inl hlt⟩
    | client k =>
      obtain ⟨⟨g, pc⟩, -, rfl⟩ := Option.map_eq_some_iff.mp h
      exact .inr ⟨hleft, .inr ⟨rfl, nofun, rfl⟩⟩
  · rintro s - hr hleft hexited rfl
    exact ⟨main_ne_none_of_left (bounded hr) hleft hexited, id⟩

/-- When all clients are done and the counter is not 0, `main` waits for ever. -/
theorem fixed_of_allDone {s s' : State (THREAD_BURST * bursts input)}
    {t : Agent (THREAD_BURST * bursts input)} (hdone : AllDone s)
    (hactive : s.shared.activeThreads ≠ 0) (h : (program input).step s t = some s') : s' = s := by
  cases t with
  | main =>
    simp only [program, step, main, hdone.1, if_neg hactive] at h
    exact (Option.some.inj h).symm
  | client k =>
    obtain ⟨⟨g, pc⟩, hstep, -⟩ := Option.map_eq_some_iff.mp h
    rw [hdone.2 k] at hstep
    cases hstep

/-- With the counter at 0, `main` leaves its wait. -/
theorem leadsTo_left (hfair : e.Fair fun _ _ => False) :
    e.LeadsTo (fun s => AllDone s ∧ s.shared.activeThreads = 0) fun s => s.main.Left := by
  refine hfair.leadsTo (μ := fun _ => 0) (H := fun _ t => t = .main) ?_
    (fun _ _ _ _ => ⟨.main, rfl⟩) ?_
  · rintro s - u s' - ⟨hdone, hactive⟩ - rfl h
    cases u with
    | main =>
      simp only [program, step, main, hdone.1, if_pos hactive] at h
      cases h
      exact .inl trivial
    | client k =>
      obtain ⟨⟨g, pc⟩, hstep, -⟩ := Option.map_eq_some_iff.mp h
      rw [hdone.2 k] at hstep
      cases hstep
  · rintro s - - ⟨hdone, hactive⟩ - rfl
    exact ⟨by simp [program, step, main, hdone.1, hactive], id⟩

end Executions

/-- **The end of the scheduler**: on any input, in every schedule that lets everybody go on, `main`
exits, or all clients have come to their end and `main` waits for ever, the counter being
different from 0. -/
theorem exits_or_spins (input : List Char) (e : (program input).Execution)
    (hfair : e.Fair fun _ _ => False) :
    ∃ N, (e.state N).main = .exited ∨
      AllDone (e.state N) ∧ (e.state N).shared.activeThreads ≠ 0 ∧
        ∀ k, e.state (N + k) = e.state N := by
  obtain ⟨N, -, hleft | hdone⟩ := leadsTo_left_or_done hfair 0 trivial
  · obtain ⟨K, -, hexited⟩ := leadsTo_exited hfair N hleft
    exact ⟨K, .inl hexited⟩
  · by_cases hactive : (e.state N).shared.activeThreads = 0
    · obtain ⟨K, -, hexited⟩ :=
        ((leadsTo_left hfair).trans (leadsTo_exited hfair)) N ⟨hdone, hactive⟩
      exact ⟨K, .inl hexited⟩
    · exact ⟨N, .inr ⟨hdone, hactive, Execution.state_of_fixed fun _ _ =>
        fixed_of_allDone hdone hactive⟩⟩

/-- `main` and the clients. -/
def agents (n : ℕ) : List (Agent n) := .main :: (List.finRange n).map .client

theorem agents_pos (n : ℕ) : 0 < (agents n).length := Nat.succ_pos _

theorem mem_agents (t : Agent n) : t ∈ agents n := by
  cases t with
  | main => exact List.mem_cons_self
  | client k => exact List.mem_cons_of_mem _ (List.mem_map_of_mem (List.mem_finRange k))

/-- Two bursts, with everybody in turn. -/
theorem exits_or_spins_two : ∃ N,
    ((program ['\n', '\n']).states (start ['\n', '\n']) (cycle (agents _) (agents_pos _)) N).main
        = .exited ∨
      AllDone ((program ['\n', '\n']).states (start ['\n', '\n'])
        (cycle (agents _) (agents_pos _)) N) := by
  obtain ⟨N, hexited | ⟨hdone, -⟩⟩ := exits_or_spins ['\n', '\n']
    (execution rfl (cycle (agents _) (agents_pos _))) (fair_cycle mem_agents)
  · exact ⟨N, .inl hexited⟩
  · exact ⟨N, .inr hdone⟩

end BurstScheduler
