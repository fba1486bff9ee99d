/-
Runs of the scheduler of Lab02 that end badly.

* `via_spinning` — `main` alone comes to its wait, with all clients still to begin;
* `via_clients`, `via_overlap` — clients one after another, and two that load the same value;
* `shutdown` — with no burst `main` waits forever, with two or more it leaves too early,
  and with one it waits forever if two decrements overlap.
-/
import SistemiDiCalcolo.BurstScheduler

open Function (update)

namespace BurstScheduler

variable {n : ℕ} {input : List Char}

/-! ### `main` alone -/

/-- `t` clients have been created, none of them has begun. -/
def created (t : ℕ) (rest : List Char) (pc : MainPc) : State n where
  shared := .start
  input := rest
  threadId := t
  main := pc
  client k := if k.val < t then .first 0 else .absent

section Main

variable {M : Machine (State n) (Agent n)} {ok : State n → Agent n → Prop}

/-- A burst, from its `i`-th client on. -/
theorem via_burst (hM : M.step = step) (hok : ∀ s, ok s .main) {t : ℕ} {rest : List Char}
    (ht : t + THREAD_BURST ≤ n) (h : M.ReachableVia ok (created t rest (.spawn 0))) :
    M.ReachableVia ok (created (t + THREAD_BURST) rest .getchar) := by
  have hstage : ∀ i, i ≤ THREAD_BURST →
      M.ReachableVia ok (created (t + i) rest (.spawn i)) := by
    intro i
    induction i with
    | zero => exact fun _ => h
    | succ i ih =>
      intro hi
      have hlt : t + i < n := by omega
      refine (ih (Nat.le_of_succ_le hi)).step .main (hok _) ?_
      rw [hM]
      simp only [step, main, created, if_pos (show i < THREAD_BURST from hi), dif_pos hlt,
        update_stage, Nat.add_assoc]
  refine (hstage THREAD_BURST le_rfl).step .main (hok _) ?_
  rw [hM]
  rfl

/-- The whole input. -/
theorem via_input (hM : M.step = step) (hok : ∀ s, ok s .main) {t : ℕ} {rest : List Char}
    (ht : t + THREAD_BURST * bursts rest = n)
    (h : M.ReachableVia ok (created t rest .getchar)) :
    M.ReachableVia ok (created n [] .getchar) := by
  induction rest generalizing t with
  | nil =>
    obtain rfl : t = n := ht
    exact h
  | cons c rest ih =>
    by_cases hc : c = '\n'
    · subst hc
      rw [bursts, List.count_cons_self, Nat.mul_succ] at ht
      have hburst : M.ReachableVia ok (created t rest (.spawn 0)) := by
        refine h.step .main (hok _) ?_
        rw [hM]
        rfl
      refine ih ?_ (via_burst hM hok (by omega) hburst)
      rw [bursts]
      omega
    · rw [bursts, List.count_cons_of_ne hc] at ht
      refine ih ht (h.step .main (hok _) ?_)
      rw [hM]
      simp only [step, main, created, if_neg hc]

/-- `main` waits for the counter; the clients are given, and nobody uses the resource. -/
def spinning (exit : ℕ) (active : CInt) (client : Fin n → ClientPc) : State n where
  shared := ⟨some NUM_RESOURCES, some exit, active⟩
  input := []
  threadId := n
  main := .spinning
  client := client

/-- `main` comes to its wait before any client has begun. -/
theorem via_spinning (hM : M.step = step) (hok : ∀ s, ok s .main)
    (hn : THREAD_BURST * bursts input = n) (h : M.init (start input)) :
    M.ReachableVia ok (spinning 4 (BitVec.ofNat 32 THREAD_BURST) fun _ => .first 0) := by
  have hread : M.ReachableVia ok (created n [] .getchar) :=
    via_input hM hok (by rw [Nat.zero_add, hn]) (Machine.ReachableVia.init h)
  have hall : (fun k : Fin n => if k.val < n then ClientPc.first 0 else .absent)
      = fun _ => .first 0 := funext fun k => if_pos k.isLt
  have hwait : M.ReachableVia ok (created n [] .waitExit) := by
    refine hread.step .main (hok _) ?_
    rw [hM]
    rfl
  refine hwait.step .main (hok _) ?_
  rw [hM]
  simp only [step, main, created, hall]
  rfl

end Main

/-! ### One client -/

/-- The next steps of a client, if nobody else moves. -/
def clientRun : ℕ → Shared × ClientPc → Option (Shared × ClientPc)
  | 0, c => some c
  | j + 1, (g, pc) => (client g pc).bind (clientRun j)

section Client

variable {M : Machine (State n) (Agent n)} {ok : State n → Agent n → Prop}

theorem via_client (hM : M.step = step) {s : State n} (h : M.ReachableVia ok s) {k : Fin n}
    (hok : ∀ g pc, ok { s with shared := g, client := update s.client k pc } (.client k)) {j : ℕ}
    {g : Shared} {pc : ClientPc} (hrun : clientRun j (s.shared, s.client k) = some (g, pc)) :
    M.ReachableVia ok { s with shared := g, client := update s.client k pc } := by
  induction j generalizing s with
  | zero =>
    cases hrun
    rwa [Function.update_eq_self]
  | succ j ih =>
    obtain ⟨⟨g', pc'⟩, hstep, hrest⟩ := Option.bind_eq_some_iff.mp hrun
    have hone : M.ReachableVia ok { s with shared := g', client := update s.client k pc' } := by
      refine h.step (.client k) ?_ ?_
      · have := hok s.shared (s.client k)
        rwa [Function.update_eq_self] at this
      · rw [hM, step, hstep]
        rfl
    have hlast := ih hone (fun g pc => ?_) ?_
    · simpa only [Function.update_idem] using hlast
    · simpa only [Function.update_idem] using hok g pc
    · simpa only [Function.update_self] using hrest

/-- A client uses the resource five times and loads the counter. -/
theorem clientRun_load (exit : ℕ) (active : CInt) :
    clientRun 14 (⟨some NUM_RESOURCES, some (exit + 1), active⟩, .first 0)
      = some (⟨some NUM_RESOURCES, some exit, active⟩, .storeActive active) := rfl

/-- A client stores the counter and lets the next one in. -/
theorem clientRun_store (exit : ℕ) (active x : CInt) :
    clientRun 2 (⟨some NUM_RESOURCES, some exit, active⟩, .storeActive x)
      = some (⟨some NUM_RESOURCES, some (exit + 1), x - 1⟩, .done) := rfl

section Moves

variable {exit : ℕ} {active : CInt} {c : Fin n → ClientPc} {k : Fin n}

theorem via_load (hM : M.step = step) (hk : c k = .first 0)
    (hok : ∀ g pc, ok { (spinning (exit + 1) active c) with
      shared := g, client := update c k pc } (.client k))
    (h : M.ReachableVia ok (spinning (exit + 1) active c)) :
    M.ReachableVia ok (spinning exit active (update c k (.storeActive active))) := by
  refine via_client hM h hok (j := 14) ?_
  show clientRun 14 (_, c k) = _
  rw [hk]
  exact clientRun_load exit active

theorem via_store (hM : M.step = step) {x : CInt} (hk : c k = .storeActive x)
    (hok : ∀ g pc, ok { (spinning exit active c) with
      shared := g, client := update c k pc } (.client k))
    (h : M.ReachableVia ok (spinning exit active c)) :
    M.ReachableVia ok (spinning (exit + 1) (x - 1) (update c k .done)) := by
  refine via_client hM h hok (j := 2) ?_
  show clientRun 2 (_, c k) = _
  rw [hk]
  exact clientRun_store exit active x

end Moves

/-- The clients below `j` are at their end, the others have not begun. -/
def doneBelow (j : ℕ) : Fin n → ClientPc := fun k => if k.val < j then .done else .first 0

theorem storing_doneBelow (j : ℕ) (k : Fin n) : (doneBelow j k).storing = 0 := by
  rw [doneBelow]
  split <;> rfl

theorem update_doneBelow {j : ℕ} (hj : j < n) :
    update (doneBelow j) ⟨j, hj⟩ .done = doneBelow (j + 1) := update_stage _ _ hj

/-- The clients one after another, from the `j`-th on. -/
theorem via_clients (hM : M.step = step) {exit b : ℕ} {active : CInt} {j : ℕ}
    (hok : ∀ (s : State n) k, (∀ l, l ≠ k → (s.client l).storing = 0) → ok s (.client k))
    (h : M.ReachableVia ok (spinning (exit + 1) active (doneBelow j))) (hb : j + b ≤ n) :
    M.ReachableVia ok (spinning (exit + 1) (active - BitVec.ofNat 32 b) (doneBelow (j + b))) := by
  induction b with
  | zero =>
    rw [show active - BitVec.ofNat 32 0 = active from sub_zero active]
    exact h
  | succ b ih =>
    have hlt : j + b < n := hb
    have hfirst : doneBelow (j + b) (⟨j + b, hlt⟩ : Fin n) = .first 0 := if_neg (lt_irrefl _)
    -- the others are at their beginning or at their end
    have hothers : ∀ pc l, l ≠ (⟨j + b, hlt⟩ : Fin n) →
        (update (doneBelow (j + b)) ⟨j + b, hlt⟩ pc l).storing = 0 := by
      intro pc l hl
      rw [Function.update_of_ne hl]
      exact storing_doneBelow (j + b) l
    have hload := via_load hM hfirst (fun _ pc => hok _ _ (hothers pc))
      (ih (Nat.le_of_succ_le hb))
    have hstore := via_store hM (Function.update_self _ _ _) (fun _ pc => hok _ _ ?_) hload
    · rw [Function.update_idem, update_doneBelow hlt] at hstore
      rw [BitVec.ofNat_add, ← sub_sub]
      exact hstore
    · simp only [Function.update_idem]
      exact hothers pc

/-- Two clients load the counter before either of them stores it. -/
theorem via_overlap (hM : M.step = step) {exit : ℕ} {active : CInt} {c : Fin n → ClientPc}
    (hok : ∀ s k, ok s (.client k)) {k l : Fin n} (hkl : k ≠ l) (hk : c k = .first 0)
    (hl : c l = .first 0) (h : M.ReachableVia ok (spinning (exit + 2) active c)) :
    M.ReachableVia ok
      (spinning (exit + 2) (active - 1) (update (update c k .done) l .done)) := by
  have hloads := via_load hM ((Function.update_of_ne hkl.symm _ _).trans hl) (fun _ _ => hok _ _)
    (via_load hM hk (fun _ _ => hok _ _) h)
  have hfirst := via_store hM
    ((Function.update_of_ne hkl _ _).trans (Function.update_self k _ _)) (fun _ _ => hok _ _)
    hloads
  have hboth := via_store hM
    ((Function.update_of_ne hkl.symm _ _).trans (Function.update_self l _ _))
    (fun _ _ => hok _ _) hfirst
  rw [Function.update_comm hkl.symm, Function.update_idem, Function.update_idem] at hboth
  exact hboth

end Client

/-! ### The bad ends -/

theorem separate_of_storing {s : State n} {k : Fin n}
    (h : ∀ l, l ≠ k → (s.client l).storing = 0) : Separate s (.client k) := fun _ => h

/-- Without a burst the counter is never 0. -/
theorem not_good_of_none (hb : bursts input = 0) :
    ∃ s, (program input).ReachableVia Separate s ∧ ¬ Good s := by
  refine ⟨_, via_spinning rfl (fun _ => trivial) rfl rfl, fun hgood => ?_⟩
  have hzero : (BitVec.ofNat 32 THREAD_BURST : CInt) = 0 := hgood.2 trivial fun k =>
    absurd (k.isLt.trans_eq (by rw [hb, Nat.mul_zero])) (Nat.not_lt_zero _)
  exact absurd hzero (by decide)

/-- With two bursts or more, five clients are enough to make the counter 0. -/
theorem leaves_early (hb : 2 ≤ bursts input) :
    ∃ s, (program input).ReachableVia Separate s ∧ s.main.Left ∧
      ∃ k, s.client k ≠ .absent ∧ ¬ (s.client k).Finished := by
  have hn : 5 * 2 ≤ THREAD_BURST * bursts input := Nat.mul_le_mul_left 5 hb
  have hfive : (program input).ReachableVia Separate (spinning 4 0 (doneBelow 5)) :=
    via_clients (j := 0) (b := 5) rfl (fun _ _ => separate_of_storing)
      (via_spinning rfl (fun _ => trivial) rfl rfl) (by omega)
  -- the sixth client has not begun
  have hlt : 5 < THREAD_BURST * bursts input := by omega
  have hsixth : doneBelow 5 (⟨5, hlt⟩ : Fin (THREAD_BURST * bursts input)) = .first 0 :=
    if_neg (lt_irrefl 5)
  have hbusy : doneBelow 5 (⟨5, hlt⟩ : Fin (THREAD_BURST * bursts input)) ≠ .absent ∧
      ¬ (doneBelow 5 (⟨5, hlt⟩ : Fin (THREAD_BURST * bursts input))).Finished := by
    rw [hsixth]
    exact ⟨nofun, id⟩
  exact ⟨{ spinning 4 0 (doneBelow 5) with main := .destroy }, hfive.step .main trivial rfl,
    trivial, ⟨5, hlt⟩, hbusy⟩

/-- With one burst, two clients that load the same value make one decrement of two. -/
theorem not_good_of_overlap (hb : bursts input = 1) :
    ∃ s, (program input).Reachable s ∧ ¬ Good s := by
  have hn : THREAD_BURST * bursts input = 5 := by rw [hb]; rfl
  have h₀ : 0 < THREAD_BURST * bursts input := by omega
  have h₁ : 1 < THREAD_BURST * bursts input := by omega
  have hstart : (program input).ReachableVia (fun _ _ => True) (spinning 4 5 (doneBelow 0)) :=
    via_spinning rfl (fun _ => trivial) rfl rfl
  have htwo := via_overlap rfl (fun _ _ => trivial)
    (fun heq => absurd (Fin.mk.inj heq) zero_ne_one : (⟨0, h₀⟩ : Fin _) ≠ ⟨1, h₁⟩)
    rfl rfl hstart
  rw [update_doneBelow, update_doneBelow] at htwo
  -- the others decrement what is left to 1
  have hall := via_clients (b := 3) rfl (fun _ _ _ => trivial) htwo hn.ge
  refine ⟨_, hall.reachable, fun hgood => ?_⟩
  have hone : (5 - 1 - BitVec.ofNat 32 3 : CInt) = 0 := hgood.2 trivial fun k => by
    show (doneBelow (0 + 1 + 1 + 3) k).decremented = 1
    rw [doneBelow, if_pos (k.isLt.trans_eq hn)]
    rfl
  exact absurd hone (by decide)

/-- **The shutdown**: in the runs in which no two decrements overlap it is as it should be
exactly if one burst has been requested; and no number of bursts makes it so in all
runs. -/
theorem shutdown (input : List Char) :
    ((∀ s, (program input).ReachableVia Separate s → Good s) ↔ bursts input = 1) ∧
      ¬ ∀ s, (program input).Reachable s → Good s := by
  rcases Nat.lt_trichotomy (bursts input) 1 with hlt | hone | hgt
  · obtain ⟨s, hs, hbad⟩ := not_good_of_none (Nat.lt_one_iff.mp hlt)
    exact ⟨⟨fun h => absurd (h s hs) hbad, fun h => absurd h hlt.ne⟩,
      fun h => hbad (h s hs.reachable)⟩
  · obtain ⟨s, hs, hbad⟩ := not_good_of_overlap hone
    exact ⟨⟨fun _ => hone, fun _ s hs => good_of_separate hone hs⟩, fun h => hbad (h s hs)⟩
  · obtain ⟨s, hs, hleft, k, hspawned, hbusy⟩ := leaves_early hgt
    exact ⟨⟨fun h => absurd ((h s hs).1 hleft k hspawned) hbusy, fun h => absurd h hgt.ne'⟩,
      fun h => hbusy ((h s hs.reachable).1 hleft k hspawned)⟩

/-- Two lines: `main` destroys the semaphore while a client has yet to use it. -/
theorem two_lines_leave_early : ∃ s, (program ['\n', '\n']).Reachable s ∧ s.main.Left ∧
    ∃ k, s.client k ≠ .absent ∧ ¬ (s.client k).Finished := by
  obtain ⟨s, hs, hbad⟩ := leaves_early (by decide : 2 ≤ bursts ['\n', '\n'])
  exact ⟨s, hs.reachable, hbad⟩

end BurstScheduler
