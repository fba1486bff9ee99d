/-
How the clients of the named semaphore end, whatever the servers do.

A server can be stopped and started again at any time, and this leaves the semaphores alone that
the clients have opened.  What a client cannot survive is a thread that finds no name: the process
exits, and the resources that its other threads hold are never given back.

* `main_left`, `client_left` — what the clients can still do gets less with every step of theirs;
* `main_eq_none_iff`, `client_eq_none_iff` — who cannot go on, which no server changes;
* `lost_mono` — a lost resource remains lost;
* `clients_end_or_wait` — in the end the threads are done, or wait for ever on a semaphore all of
  whose resources have been lost.
-/
import SistemiDiCalcolo.Fairness
import SistemiDiCalcolo.NamedScheduler
import SistemiDiCalcolo.Tally

open Function (update)

namespace NamedScheduler

open Machine

/-! ### What is left to do -/

/-- The steps that a thread has before it. -/
def ClientPc.left : ClientPc → ℕ
  | .opening => 4
  | .wait _ => 3
  | .working _ => 2
  | .close _ => 1
  | .done => 0

/-- The steps that a main thread has before it with no more input, and those of the threads that
it will create. -/
def MainPc.left : MainPc → ℕ
  | .getchar => 1
  | .spawn i => 2 + 5 * (THREAD_BURST - i)
  | .exited => 0

/-- What a character of the input asks for. -/
def charLeft (c : Char) : ℕ := if c = '\n' then 2 + 5 * THREAD_BURST else 1

/-- The steps of a process and of the threads that it will create; its exit is one. -/
def Process.left (q : Process) : ℕ :=
  q.alive.toNat + q.main.left + (q.input.map charLeft).sum

/-- The steps of all clients. -/
def State.left {ι : Type*} [Fintype ι] (s : State ι) : ℕ :=
  tally Process.left s.process + (s.threads.map fun t => t.pc.left).sum

/-- A sum over a list in which one element changes. -/
theorem sum_set_add {α : Type*} {f : α → ℕ} {l : List α} {i : ℕ} {a : α} (b : α)
    (h : l[i]? = some a) : ((l.set i b).map f).sum + f a = (l.map f).sum + f b := by
  induction l generalizing i with
  | nil => cases h
  | cons c l ih =>
    cases i with
    | zero =>
      cases h
      simp only [List.set_cons_zero, List.map_cons, List.sum_cons]
      omega
    | succ i =>
      have htail := ih h
      simp only [List.set_cons_succ, List.map_cons, List.sum_cons]
      omega

section Steps

variable {ι : Type*} [DecidableEq ι] {s s' : State ι} {p : ι} {i k : ℕ}

/-- The main thread of a client starts threads, and no process exits with it. -/
theorem main_frame (h : main s p = some s') :
    s'.value = s.value ∧ s.threads <+: s'.threads ∧
      ∀ q, (s'.process q).alive = (s.process q).alive := by
  have halive : ∀ q (r : Process), r.alive = (s.process p).alive →
      (update s.process p r q).alive = (s.process q).alive := by
    intro q r hr
    rcases eq_or_ne q p with rfl | hne
    · rw [Function.update_self, hr]
    · rw [Function.update_of_ne hne]
  cases main_step h with
  | inputOver _ _ | read c input _ _ | spawned j _ _ =>
    exact ⟨rfl, List.prefix_rfl, fun q => halive q _ rfl⟩
  | spawn j _ _ => exact ⟨rfl, List.prefix_append _ _, fun q => halive q _ rfl⟩

/-- Every step of a main thread is one less. -/
theorem main_left [Fintype ι] (h : main s p = some s') : s'.left < s.left := by
  have hset := fun q : Process => tally_update Process.left s.process p q
  cases main_step h with
  | inputOver hpc hinput =>
    have := hset { s.process p with main := .exited }
    simp only [State.left, Process.left, hpc, hinput, MainPc.left] at this ⊢
    omega
  | read c input hpc hinput =>
    have := hset { s.process p with
      input := input, main := if c = '\n' then .spawn 0 else .getchar }
    simp only [State.left, Process.left, hpc, hinput, MainPc.left, List.map_cons, List.sum_cons,
      charLeft] at this ⊢
    split_ifs at this ⊢ <;> simp only at this <;> omega
  | spawn j hpc hj =>
    -- the thread that it creates has fewer steps than were counted for it
    have := hset { s.process p with main := .spawn (j + 1) }
    simp only [State.left, Process.left, hpc, MainPc.left, List.map_append, List.sum_append,
      List.map_cons, List.map_nil, List.sum_cons, List.sum_nil, ClientPc.left] at this ⊢
    omega
  | spawned j hpc hj =>
    have := hset { s.process p with main := .getchar }
    simp only [State.left, Process.left, hpc, MainPc.left] at this ⊢
    omega

/-- Every step of a thread is one less. -/
theorem client_left [Fintype ι] (h : client s i = some s') : s'.left < s.left := by
  obtain ⟨t, ht, halive, hstep⟩ := client_step h
  have hset := fun pc : ClientPc =>
    sum_set_add (f := fun t : Thread ι => t.pc.left) { t with pc := pc } ht
  cases hstep with
  | opened k hpc _ =>
    have := hset (.wait k)
    simp only [State.left, hpc, ClientPc.left] at this ⊢
    omega
  | noName _ _ =>
    have := tally_update Process.left s.process t.process
      { s.process t.process with alive := false }
    simp only [State.left, Process.left, halive, Bool.toNat_true, Bool.toNat_false] at this ⊢
    omega
  | acquire k v hpc _ =>
    have := hset (.working k)
    simp only [State.left, hpc, ClientPc.left] at this ⊢
    omega
  | release k v hpc _ =>
    have := hset (.close k)
    simp only [State.left, hpc, ClientPc.left] at this ⊢
    omega
  | closed k hpc =>
    have := hset .done
    simp only [State.left, hpc, ClientPc.left] at this ⊢
    omega

end Steps

section Frame

variable {ι : Type*} {s s' : State ι} {k : ℕ}

/-- The steps of the servers. -/
def Agent.IsServer : Agent ι → Prop
  | .server _ | .interrupt _ => True
  | .main _ | .client _ => False

/-- What a server leaves as it is: the clients, and the semaphores there are. -/
structure Frame (s s' : State ι) : Prop where
  process : s'.process = s.process
  threads : s'.threads = s.threads
  value : ∀ l v, s.value l = some v → s'.value l = some v

theorem server_frame (hs : Inv s) (h : server s k = some s') : Frame s s' := by
  unfold server at h
  cases hpc : s.server k with
  | start | unlink | setQuitHandler | print v | close | cleanupUnlink =>
    rw [hpc] at h
    cases h
    exact ⟨rfl, rfl, fun _ _ hv => hv⟩
  | create =>
    rw [hpc] at h
    cases hname : s.name with
    | some l =>
      rw [hname] at h
      cases h
      exact ⟨rfl, rfl, fun _ _ hv => hv⟩
    | none =>
      rw [hname] at h
      cases h
      refine ⟨rfl, rfl, fun l v hv => ?_⟩
      have hcreated := hs.created k false (by rw [hpc]; rfl)
      have hne : l ≠ k := by
        rintro rfl
        rw [hv] at hcreated
        cases hcreated
      exact (Function.update_of_ne hne _ _).trans hv
  | getvalue =>
    rw [hpc] at h
    obtain ⟨v, -, rfl⟩ := Option.map_eq_some_iff.mp h
    exact ⟨rfl, rfl, fun _ _ hv => hv⟩
  | exited =>
    rw [hpc] at h
    cases h

theorem interrupt_frame (h : interrupt s k = some s') : Frame s s' := by
  unfold interrupt at h
  cases hpc : s.server k with
  | unlink | create | setQuitHandler | getvalue | print v =>
    rw [hpc] at h
    cases h
    exact ⟨rfl, rfl, fun _ _ hv => hv⟩
  | start | close | cleanupUnlink | exited =>
    rw [hpc] at h
    cases h

theorem frame [DecidableEq ι] {a : Agent ι} (hs : Inv s) (ha : a.IsServer)
    (h : step s a = some s') : Frame s s' := by
  cases a with
  | server k => exact server_frame hs h
  | interrupt k => exact interrupt_frame h
  | main p | client i => exact ha.elim

end Frame

/-! ### Who cannot go on -/

section Blocked

variable {ι : Type*} [DecidableEq ι] {s s' : State ι} {p : ι} {i k : ℕ}

theorem main_eq_none_iff :
    main s p = none ↔ ((s.process p).alive → (s.process p).main = .exited) := by
  unfold main
  split_ifs with halive
  · cases hpc : (s.process p).main with
    | getchar =>
      refine iff_of_false ?_ fun h => by cases h halive
      cases (s.process p).input <;> simp
    | spawn j =>
      refine iff_of_false ?_ fun h => by cases h halive
      by_cases hj : j < THREAD_BURST <;> simp [hj]
    | exited => exact iff_of_true rfl fun _ => rfl
  · exact iff_of_true rfl fun h => absurd h halive

/-- A thread cannot go on if it is done, waits for a resource, or has no process. -/
theorem client_eq_none_iff (hs : Inv s) :
    client s i = none ↔ ∀ t, s.threads[i]? = some t → (s.process t.process).alive →
      t.pc = .done ∨ ∃ k, t.pc = .wait k ∧ s.value k = some 0 := by
  unfold client
  cases ht : s.threads[i]? with
  | none => exact iff_of_true rfl fun t h => by cases h
  | some t =>
    rw [Option.bind_some]
    -- there is one thread to be looked at
    have hall : (∀ t', some t = some t' → (s.process t'.process).alive →
        t'.pc = .done ∨ ∃ k, t'.pc = .wait k ∧ s.value k = some 0) ↔
        ((s.process t.process).alive → t.pc = .done ∨ ∃ k, t.pc = .wait k ∧ s.value k = some 0) :=
      ⟨fun h => h t rfl, fun h t' heq => Option.some.inj heq ▸ h⟩
    rw [hall]
    split_ifs with halive
    · cases hpc : t.pc with
      | opening =>
        refine iff_of_false ?_ fun h => by simpa using h halive
        simp only
        split <;> exact Option.some_ne_none _
      | wait k =>
        -- a semaphore that has been opened is there, though its name may be gone
        obtain ⟨v, hv⟩ := hs.exists_value ht (by rw [hpc]; rfl)
        cases v with
        | zero =>
          simp only [hv]
          exact iff_of_true trivial fun _ => .inr ⟨k, rfl, hv⟩
        | succ v =>
          simp only [hv]
          refine iff_of_false (Option.some_ne_none _) fun h => ?_
          obtain hdone | ⟨l, hl, hzero⟩ := h halive
          · cases hdone
          · cases hl
            rw [hv] at hzero
            cases hzero
      | working k =>
        obtain ⟨v, hv⟩ := hs.exists_value ht (by rw [hpc]; rfl)
        refine iff_of_false ?_ fun h => by simpa using h halive
        simp only [hv, Option.map_some]
        exact Option.some_ne_none _
      | close k => exact iff_of_false (Option.some_ne_none _) fun h => by simpa using h halive
      | done => exact iff_of_true rfl fun _ => .inl rfl
    · exact iff_of_true rfl fun h => absurd h halive

/-- No client can go on. -/
def Quiet (s : State ι) : Prop := (∀ p, main s p = none) ∧ ∀ i, client s i = none

/-- What a server does lets nobody go on, and keeps nobody from it. -/
theorem Frame.client_eq_none (hframe : Frame s s') (hs : Inv s) (hs' : Inv s') :
    client s' i = none ↔ client s i = none := by
  rw [client_eq_none_iff hs, client_eq_none_iff hs', hframe.threads, hframe.process]
  refine forall_congr' fun t => forall_congr' fun ht => forall_congr' fun _ => or_congr_right ?_
  refine exists_congr fun k => and_congr_right fun hpc => ?_
  obtain ⟨v, hv⟩ := hs.exists_value ht (by rw [hpc]; rfl)
  rw [hframe.value k v hv, hv]

theorem Frame.main_eq_none (hframe : Frame s s') : main s' p = none ↔ main s p = none := by
  rw [main_eq_none_iff, main_eq_none_iff, hframe.process]

theorem Frame.quiet (hframe : Frame s s') (hs : Inv s) (hs' : Inv s') : Quiet s' ↔ Quiet s :=
  and_congr (forall_congr' fun _ => hframe.main_eq_none)
    (forall_congr' fun _ => hframe.client_eq_none hs hs')

/-- The threads that hold the resources of a semaphore with the value 0 have lost them, if nobody
can go on. -/
theorem Quiet.lost_eq (hq : Quiet s) (hs : Inv s) {k : ℕ} (hv : s.value k = some 0) :
    lost s k = NUM_RESOURCES := by
  have hbalance := hs.balance k 0 hv
  have hsum := held_add_lost s k
  have hheld : held s k = 0 := by
    refine List.countP_eq_zero.mpr fun t ht => ?_
    obtain ⟨i, hi⟩ := List.mem_iff_getElem?.mp ht
    rw [Bool.and_eq_true, not_and]
    intro hholds halive
    rcases (client_eq_none_iff hs).mp (hq.2 i) t hi halive with hpc | ⟨l, hpc, -⟩
    · rw [hpc] at hholds
      cases hholds
    · rw [hpc] at hholds
      cases hholds
  omega

/-- The end of the clients: the main threads of those that are there have exited, and each of their
threads is done, or waits for a resource of which there is none left. -/
structure Ended (s : State ι) : Prop where
  main : ∀ p, (s.process p).alive → (s.process p).main = .exited
  thread : ∀ t ∈ s.threads, (s.process t.process).alive →
    t.pc = .done ∨ ∃ k, t.pc = .wait k ∧ lost s k = NUM_RESOURCES

theorem Quiet.ended (hq : Quiet s) (hs : Inv s) : Ended s := by
  refine ⟨fun p => main_eq_none_iff.mp (hq.1 p), fun t ht halive => ?_⟩
  obtain ⟨i, hi⟩ := List.mem_iff_getElem?.mp ht
  refine ((client_eq_none_iff hs).mp (hq.2 i) t hi halive).imp_right ?_
  rintro ⟨k, hpc, hv⟩
  exact ⟨k, hpc, hq.lost_eq hs hv⟩

/-! ### What is lost -/

/-- A resource that has been lost remains lost. -/
theorem lost_mono {a : Agent ι} (hs : Inv s) (h : step s a = some s') (k : ℕ) :
    lost s k ≤ lost s' k := by
  have hframe : Frame s s' → lost s k ≤ lost s' k := by
    intro hframe
    rw [lost, lost, hframe.threads, hframe.process]
  cases a with
  | server l => exact hframe (server_frame hs h)
  | interrupt l => exact hframe (interrupt_frame h)
  | main p =>
    obtain ⟨-, hprefix, halive⟩ := main_frame h
    have heq : lost s k = s.threads.countP
        fun t => t.pc.holds k && !(s'.process t.process).alive := by
      simp only [lost, halive]
    rw [heq]
    exact hprefix.sublist.countP_le
  | client i =>
    obtain ⟨t, ht, halive, hstep⟩ := client_step h
    -- the thread that moves has not lost anything
    have hset : ∀ pc, lost s k ≤ (s.threads.set i { t with pc := pc }).countP
        fun t => t.pc.holds k && !(s.process t.process).alive := by
      intro pc
      have hcount := countP_set_add
        (f := fun t : Thread ι => t.pc.holds k && !(s.process t.process).alive)
        { t with pc := pc } ht
      simp only [halive, Bool.not_true, Bool.and_false, Bool.toNat_false, Nat.add_zero] at hcount
      exact hcount.ge
    cases hstep with
    | opened l _ _ | acquire l v _ _ | release l v _ _ | closed l _ => exact hset _
    | noName _ _ =>
      refine List.countP_mono_left fun u _ hu => ?_
      rw [Bool.and_eq_true] at hu ⊢
      refine ⟨hu.1, ?_⟩
      show (!(update s.process t.process { s.process t.process with alive := false }
        u.process).alive) = true
      rcases eq_or_ne u.process t.process with heq | hne
      · rw [heq, Function.update_self]
        rfl
      · rw [Function.update_of_ne hne]
        exact hu.2

/-- All resources of the semaphore `k` have been lost, and the thread `i` waits for one. -/
def WaitsForLost (s : State ι) (i k : ℕ) : Prop :=
  (∃ p, s.threads[i]? = some ⟨p, .wait k⟩) ∧ lost s k = NUM_RESOURCES

/-- A thread moves in its own steps only. -/
theorem thread_of_step {a : Agent ι} (hs : Inv s) (ha : a ≠ .client i) (h : step s a = some s')
    {t : Thread ι} (ht : s.threads[i]? = some t) : s'.threads[i]? = some t := by
  cases a with
  | server l => rwa [(server_frame hs h).threads]
  | interrupt l => rwa [(interrupt_frame h).threads]
  | main p =>
    obtain ⟨-, ⟨more, hmore⟩, -⟩ := main_frame h
    obtain ⟨hi, -⟩ := List.getElem?_eq_some_iff.mp ht
    rw [← hmore, List.getElem?_append_left hi]
    exact ht
  | client j =>
    have hji : j ≠ i := fun heq => ha (heq ▸ rfl)
    have hset : ∀ u, (s.threads.set j u)[i]? = some t := fun u => by
      rwa [List.getElem?_set_ne hji]
    obtain ⟨u, -, -, hstep⟩ := client_step h
    cases hstep with
    | opened l _ _ | acquire l v _ _ | release l v _ _ | closed l _ => exact hset _
    | noName _ _ => exact ht

theorem WaitsForLost.step {a : Agent ι} {k : ℕ} (hw : WaitsForLost s i k) (hs : Inv s)
    (h : NamedScheduler.step s a = some s') : WaitsForLost s' i k := by
  obtain ⟨⟨p, ht⟩, hlost⟩ := hw
  obtain ⟨v, hv⟩ := hs.exists_value ht rfl
  have hbalance := hs.balance k v hv
  have hsum := held_add_lost s k
  have hne : a ≠ .client i := by
    rintro rfl
    have hnone : client s i = none := by
      refine (client_eq_none_iff hs).mpr fun t hi _ => .inr ⟨k, ?_, ?_⟩
      · rw [ht] at hi
        cases hi
        rfl
      · rw [hv]
        congr
        omega
    exact absurd hnone (by rw [show client s i = some s' from h]; exact Option.some_ne_none _)
  have ht' := thread_of_step hs hne h ht
  obtain ⟨w, hw⟩ := (hs.step h).exists_value ht' rfl
  have hbalance' := (hs.step h).balance k w hw
  have hsum' := held_add_lost s' k
  have hmono := lost_mono hs h k
  exact ⟨⟨p, ht'⟩, by omega⟩

end Blocked

/-! ### Schedules without an end -/

section Executions

variable {ι : Type*} [DecidableEq ι] {inputs : ι → List Char} {e : (program inputs).Execution}

theorem step_server_or {s s' : State ι} {a : Agent ι} [Fintype ι] (hs : Inv s)
    (h : (program inputs).step s a = some s') :
    (a.IsServer ∧ Frame s s') ∨ ¬ a.IsServer ∧ s'.left < s.left := by
  cases a with
  | server k => exact .inl ⟨trivial, server_frame hs h⟩
  | interrupt k => exact .inl ⟨trivial, interrupt_frame h⟩
  | main p => exact .inr ⟨id, main_left h⟩
  | client i => exact .inr ⟨id, client_left h⟩

/-- A client that can move still can after a step of a server. -/
theorem step_ne_none_of_frame {s s' : State ι} {a : Agent ι} (hframe : Frame s s') (hs : Inv s)
    (hs' : Inv s') (ha : ¬ a.IsServer) (h : (program inputs).step s a ≠ none) :
    (program inputs).step s' a ≠ none := by
  cases a with
  | server k | interrupt k => exact absurd trivial ha
  | main p => exact fun hnone => h (hframe.main_eq_none.mp hnone)
  | client i => exact fun hnone => h ((hframe.client_eq_none hs hs').mp hnone)

/-- The clients come to a point where none of them can go on. -/
theorem leadsTo_quiet [Fintype ι] (hfair : e.Fair fun _ a => a.IsServer) :
    e.LeadsTo (fun _ => True) Quiet := by
  refine hfair.leadsTo (μ := State.left)
    (H := fun s a => ¬ a.IsServer ∧ (program inputs).step s a ≠ none) ?_ ?_ ?_
  · intro s a b s' hr _ _ ha h
    have hs := inv_of_reachable hr
    rcases step_server_or hs h with ⟨hserver, hframe⟩ | ⟨-, hlt⟩
    · refine .inr ⟨trivial, .inr ⟨?_, ?_, ha.1, ?_⟩⟩
      · rw [State.left, State.left, hframe.threads, hframe.process]
      · rintro rfl
        exact ha.1 hserver
      · exact step_ne_none_of_frame hframe hs (hs.step h) ha.1 ha.2
    · exact .inr ⟨trivial, .inl hlt⟩
  · intro s _ _ hq
    by_contra hnone
    refine hq ⟨fun p => ?_, fun i => ?_⟩
    · by_contra hp
      exact hnone ⟨.main p, id, hp⟩
    · by_contra hi
      exact hnone ⟨.client i, id, hi⟩
  · exact fun s a _ _ _ ha => ⟨ha.2, ha.1⟩

/-- From then on only servers move. -/
theorem quiet_forever {n : ℕ} (hq : Quiet (e.state n)) (k : ℕ) :
    Quiet (e.state (n + k)) ∧ (e.state (n + k)).process = (e.state n).process ∧
      (e.state (n + k)).threads = (e.state n).threads := by
  induction k with
  | zero => exact ⟨hq, rfl, rfl⟩
  | succ k ih =>
    obtain ⟨hqk, hprocess, hthreads⟩ := ih
    have hs := inv_of_reachable (e.reachable (n + k))
    rw [← Nat.add_assoc]
    cases h : (program inputs).step (e.state (n + k)) (e.agent (n + k)) with
    | none =>
      rw [Execution.next_of_none h]
      exact ⟨hqk, hprocess, hthreads⟩
    | some s =>
      rw [Execution.next_of_some h]
      have hserver : (e.agent (n + k)).IsServer := by
        cases ha : e.agent (n + k) with
        | server l | interrupt l => trivial
        | main p =>
          rw [ha] at h
          exact absurd (hqk.1 p) (by rw [show main _ p = some s from h]; simp)
        | client i =>
          rw [ha] at h
          exact absurd (hqk.2 i) (by rw [show client _ i = some s from h]; simp)
      have hframe := frame hs hserver h
      exact ⟨(hframe.quiet hs (hs.step h)).mpr hqk, hframe.process.trans hprocess,
        hframe.threads.trans hthreads⟩

theorem waitsForLost_forever {n i k : ℕ} (hw : WaitsForLost (e.state n) i k) (m : ℕ) :
    WaitsForLost (e.state (n + m)) i k := by
  induction m with
  | zero => exact hw
  | succ m ih =>
    rw [← Nat.add_assoc]
    cases h : (program inputs).step (e.state (n + m)) (e.agent (n + m)) with
    | none => rwa [Execution.next_of_none h]
    | some s =>
      rw [Execution.next_of_some h]
      exact ih.step (inv_of_reachable (e.reachable _)) h

/-- **How the clients end**, whatever the servers do and however often they are stopped and
started: in every schedule that lets the clients go on there is a moment from which no client
moves any more.  Then the main threads have exited, and every thread of a process that is there
is done or waits on a semaphore all of whose resources have been lost, by processes that have
exited; and who waits on such a semaphore waits for ever.  If no process has exited, all threads
are done. -/
theorem clients_end_or_wait [Fintype ι] (inputs : ι → List Char) (e : (program inputs).Execution)
    (hfair : e.Fair fun _ a => a.IsServer) :
    (∃ N, Ended (e.state N) ∧
      (∀ m, (e.state (N + m)).process = (e.state N).process ∧
        (e.state (N + m)).threads = (e.state N).threads) ∧
      ((∀ p, ((e.state N).process p).alive) → ∀ t ∈ (e.state N).threads, t.pc = .done)) ∧
    ∀ n i k, WaitsForLost (e.state n) i k → ∀ m, WaitsForLost (e.state (n + m)) i k := by
  refine ⟨?_, fun n i k hw m => waitsForLost_forever hw m⟩
  obtain ⟨N, -, hq⟩ := leadsTo_quiet hfair 0 trivial
  have hended := hq.ended (inv_of_reachable (e.reachable N))
  refine ⟨N, hended, fun m => (quiet_forever hq m).2, fun halive t ht => ?_⟩
  rcases hended.thread t ht (halive _) with hdone | ⟨k, -, hlost⟩
  · exact hdone
  · have hzero : lost (e.state N) k = 0 := by
      refine List.countP_eq_zero.mpr fun u _ => ?_
      rw [halive, Bool.not_true, Bool.and_false]
      exact Bool.false_ne_true
    rw [hzero] at hlost
    cases hlost

/-- Three threads of a client hold the resources when the server goes, and the next thread of this
client to ask for the name ends its process: a thread of another client waits for ever. -/
theorem exists_waitsForLost : ∃ s, (program fun _ : Bool => ['\n']).Reachable s ∧
    WaitsForLost s 5 0 ∧ (s.process false).alive := by
  have hrun : ∃ s, (program fun _ : Bool => ['\n']).run (start fun _ => ['\n'])
      (serve 0 ++ List.replicate 7 (.main true) ++ List.replicate 7 (.main false) ++ acquire 0
        ++ acquire 1 ++ acquire 2 ++ [.client 5, .interrupt 0, .server 0, .server 0, .client 3])
      = some s ∧ (s.threads[5]? = some ⟨false, .wait 0⟩ ∧ lost s 0 = 3) ∧
        (s.process false).alive = true := ⟨_, rfl, ⟨rfl, rfl⟩, rfl⟩
  obtain ⟨s, hs, ⟨hwait, hlost⟩, halive⟩ := hrun
  exact ⟨s, .run (.init rfl) hs, ⟨⟨false, hwait⟩, hlost⟩, halive⟩

/-- The main thread and the threads of one client, and servers that are started and stopped. -/
def turns (i : ℕ) : Agent Unit :=
  match i % 4 with
  | 0 => .main ()
  | 1 => .client (i / 4)
  | 2 => .server (i / 4)
  | _ => .interrupt (i / 4)

theorem exists_turn (a : Agent Unit) : ∃ i, turns i = a := by
  cases a with
  | main p => exact ⟨0, rfl⟩
  | client k =>
    refine ⟨4 * k + 1, ?_⟩
    rw [turns, Nat.mul_add_mod, Nat.mul_add_div (by decide)]
    rfl
  | server k =>
    refine ⟨4 * k + 2, ?_⟩
    rw [turns, Nat.mul_add_mod, Nat.mul_add_div (by decide)]
    rfl
  | interrupt k =>
    refine ⟨4 * k + 3, ?_⟩
    rw [turns, Nat.mul_add_mod, Nat.mul_add_div (by decide)]
    rfl

/-- One burst, with everybody in turn. -/
theorem clients_end_or_wait_burst : ∃ N, Ended
    ((program fun _ : Unit => ['\n']).states (start fun _ => ['\n']) (dovetail turns) N) := by
  obtain ⟨⟨N, hended, -⟩, -⟩ := clients_end_or_wait (fun _ : Unit => ['\n'])
    (execution rfl (dovetail turns)) (fair_dovetail exists_turn)
  exact ⟨N, hended⟩

end Executions

end NamedScheduler
