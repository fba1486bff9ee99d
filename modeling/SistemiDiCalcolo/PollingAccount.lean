/-
The account of the log in the riepilogo program of Lab04.

The lock of the log is a copy in each child, so that threads of two children append together; all
the same no record is lost, because each is one `write` in append mode.  The children are told to
stop by the value of `halt_sem`, which a child reads at the beginning of a round only: one that
has read the value just before the last post goes through another round.

* `Tokens` — the values and the names of the semaphores, and who has passed what;
* `account_inv` — what a child has written and has yet to write is what its rounds owe, in every
  reachable state;
* `bounded_after_halt` — once the value of `halt_sem` is `N`, at most `2 * M` more records a child.
-/
import SistemiDiCalcolo.Polling
import Mathlib.Data.Fintype.Fin
import Mathlib.Tactic.Ring

open Function (update)
open AccessLog

namespace Polling

variable {N M : ℕ} {check : ℤ} {checks : Fin N → ℤ} {s s' : State N M} {i : Fin N} {j : Fin M}

/-! ### What a step of a child does to its threads -/

namespace Child

/-- The records its threads have yet to write. -/
def pending (c : Child M) : ℕ := tally ThreadPc.pending c.thread

/-- The records that the rounds completed and the threads created so far make. -/
def owed (c : Child M) : ℕ := M * c.rounds + c.pc.created M

/-- Only a thread that has been created has a record to write. -/
theorem Ok.pending_le {c : Child M} (hc : c.Ok) : c.pending ≤ c.pc.created M := by
  have hle : ∑ k, (c.thread k).pending ≤ ∑ k : Fin M, if k.val < c.pc.created M then 1 else 0 := by
    refine Finset.sum_le_sum fun k _ => ?_
    split_ifs with hk
    · cases c.thread k <;> simp [ThreadPc.pending]
    · rw [hc.filled.eq_absent fun hfilled => hk hfilled.2]
      exact Nat.zero_le 0
  rw [← Finset.card_filter, Fin.card_filter_val_lt] at hle
  exact hle.trans (Nat.min_le_right _ _)

end Child

section Steps

variable {ready start halt ready' start' : NamedSem} {c c' : Child M}

/-- A count over the threads of a child goes up with what the child owes: a thread it
creates counts at its `sem_wait`, and one that is over does not. -/
theorem childProcess_tally {f : ThreadPc → ℕ}
    (h : childProcess N ready start halt c = some (ready', start', c')) (hc : c.Ok)
    (habsent : f .absent = 0) (hover : f .done = 0) :
    tally f c'.thread + c.owed * f .waitSem = tally f c.thread + c'.owed * f .waitSem := by
  have hfilled := hc.filled
  have hcreated := hc.created_le
  cases child_step h with
  | create j hj hpc =>
    rw [hpc] at hfilled
    simp only [Child.owed, hpc, ChildPc.created]
    rw [Filled.tally_create (j := j) hfilled hj habsent]
    ring
  | created j hpc hj =>
    rw [hpc] at hcreated
    obtain rfl : j = M := Nat.le_antisymm hcreated (Nat.le_of_not_lt hj)
    simp only [Child.owed, hpc, ChildPc.created]
  | join j hj hpc hdone =>
    simp only [Child.owed, hpc, ChildPc.created]
    rw [tally_join hdone (hover.trans habsent.symm)]
  | joined j hpc _ =>
    simp only [Child.owed, hpc, ChildPc.created]
    ring
  | openReady hpc _ | noReady hpc _ | postReady hpc | openStart hpc _ | noStart hpc _
  | waitStart hpc _ | openHalt hpc _ | noHalt hpc _ | again hpc _ | stop hpc _ | getHalt hpc =>
    simp [Child.owed, hpc]

/-- What the threads of a child have yet to write goes up with what the child owes. -/
theorem childProcess_owed
    (h : childProcess N ready start halt c = some (ready', start', c')) (hc : c.Ok) :
    c'.pending + c.owed = c.pending + c'.owed := by
  have htally := childProcess_tally (f := ThreadPc.pending) h hc rfl rfl
  simpa [ThreadPc.pending, Child.pending] using htally

/-- `childProcess` leaves the lock of the child alone. -/
theorem childProcess_lock
    (h : childProcess N ready start halt c = some (ready', start', c')) (hc : c.Ok) :
    c'.fileSem + c'.inside = c.fileSem + c.inside := by
  have htally := childProcess_tally (f := ThreadPc.inside) h hc rfl rfl
  have hsem : c'.fileSem = c.fileSem := by
    cases child_step h <;> rfl
  have hinside : c'.inside = c.inside := by simpa [ThreadPc.inside, Child.inside] using htally
  rw [hsem, hinside]

/-- Only a forked child runs, and it does not get back. -/
theorem childProcess_forked
    (h : childProcess N ready start halt c = some (ready', start', c')) :
    c.pc ≠ .notForked ∧ c'.pc ≠ .notForked := by
  cases child_step h with
  | openReady hpc _ | noReady hpc _ | postReady hpc | openStart hpc _ | noStart hpc _
  | waitStart hpc _ | openHalt hpc _ | noHalt hpc _ | again hpc _ | stop hpc _ | getHalt hpc
  | create j hj hpc | created j hpc _ | join j hj hpc _ | joined j hpc _ =>
    rw [hpc]
    exact ⟨ChildPc.noConfusion, ChildPc.noConfusion⟩

end Steps

/-! ### The semaphores -/

namespace MainPc

/-- The posts of `start_sem`. -/
@[simp] def startPosts (N : ℕ) : MainPc → ℕ
  | .fork _ | .openReady | .testReady | .getReady | .openStart | .failed => 0
  | .postStart k => k
  | _ => N

/-- The posts of `halt_sem`. -/
@[simp] def haltPosts (N : ℕ) : MainPc → ℕ
  | .postHalt k => k
  | .unlinkReady | .unlinkStart | .unlinkHalt | .parse _ | .done => N
  | _ => 0

/-- All posts have been made, and the names are being removed, or have been. -/
@[simp] def Notified : MainPc → Prop
  | .unlinkReady | .unlinkStart | .unlinkHalt | .parse _ | .done => True
  | _ => False

/-- The children that have been forked. -/
@[simp] def forks (N : ℕ) : MainPc → ℕ
  | .fork k => k
  | _ => N

/-- The counters of the loops are in their ranges. -/
@[simp] def Counts (N : ℕ) : MainPc → Prop
  | .fork k | .postStart k | .postHalt k => k ≤ N
  | .failed => False
  | _ => True

end MainPc

/-- 1 for a child that has posted `ready_sem`. -/
def Child.readied (c : Child M) : ℕ := if c.posted then 1 else 0

/-- 1 for a child that has passed the start. -/
def Child.begins (c : Child M) : ℕ := if c.started then 1 else 0

/-- What the program point of a child says about the semaphores it has passed. -/
def Child.Placed (c : Child M) : Prop :=
  match c.pc with
  | .notForked | .openReady | .postReady => c.posted = false ∧ c.started = false ∧ c.rounds = 0
  | .openStart | .waitStart => c.posted = true ∧ c.started = false ∧ c.rounds = 0
  | .openHalt => c.posted = true ∧ c.started = true ∧ c.rounds = 0
  | .testHalt | .getHalt | .create _ | .join _ => c.posted = true ∧ c.started = true
  | .exited status =>
    status = 0 ∧ c.posted = true ∧ c.started = true ∨ status = 1 ∧ c.rounds = 0

/-- The values and the names of the semaphores by the program point of the main process; the lock
of a child is free, or one of its threads is inside. -/
structure Tokens (s : State N M) : Prop where
  counts : s.main.Counts N
  ready : s.ready.value = tally Child.readied s.child
  start : s.start.value + tally Child.begins s.child = s.main.startPosts N
  halt : s.halt.value = s.main.haltPosts N
  linked : ¬ s.main.Notified →
    s.ready.linked = true ∧ s.start.linked = true ∧ s.halt.linked = true
  forked : ∀ i, (s.child i).pc = .notForked ↔ s.main.forks N ≤ i.val
  placed : ∀ i, (s.child i).Placed
  lock : ∀ i, (s.child i).pc ≠ .notForked → (s.child i).fileSem + (s.child i).inside = 1
  alive : ¬ s.main.Notified → ∀ i, (s.child i).pc ≠ .exited 1

section Steps

variable {ready start halt ready' start' : NamedSem} {c c' : Child M}

/-- A step of a child against the tokens it gives and takes. -/
theorem childProcess_tokens
    (h : childProcess N ready start halt c = some (ready', start', c')) (hc : c.Placed) :
    c'.Placed ∧ ready'.value + c.readied = ready.value + c'.readied ∧
      start'.value + c'.begins = start.value + c.begins ∧
      ready'.linked = ready.linked ∧ start'.linked = start.linked ∧
      (ready.linked = true ∧ start.linked = true ∧ halt.linked = true → c'.pc ≠ .exited 1) := by
  unfold Child.Placed at hc
  cases child_step h with
  | postReady hpc =>
    simp only [hpc] at hc
    obtain ⟨hposted, hstarted, hrounds⟩ := hc
    refine ⟨⟨rfl, hstarted, hrounds⟩, ?_, rfl, rfl, rfl, fun _ => ChildPc.noConfusion⟩
    simp [Child.readied, NamedSem.post, hposted]
  | waitStart hpc hpos =>
    simp only [hpc] at hc
    obtain ⟨hposted, hstarted, hrounds⟩ := hc
    refine ⟨⟨hposted, rfl, hrounds⟩, rfl, ?_, rfl, rfl, fun _ => ChildPc.noConfusion⟩
    simp only [Child.begins, NamedSem.take, hstarted, if_true, Bool.false_eq_true, if_false]
    exact Nat.sub_add_cancel hpos
  | noReady hpc hno =>
    simp only [hpc] at hc
    refine ⟨.inr ⟨rfl, hc.2.2⟩, rfl, rfl, rfl, rfl, fun hlinked => ?_⟩
    rw [hno] at hlinked
    cases hlinked.1
  | noStart hpc hno =>
    simp only [hpc] at hc
    refine ⟨.inr ⟨rfl, hc.2.2⟩, rfl, rfl, rfl, rfl, fun hlinked => ?_⟩
    rw [hno] at hlinked
    cases hlinked.2.1
  | noHalt hpc hno =>
    simp only [hpc] at hc
    refine ⟨.inr ⟨rfl, hc.2.2⟩, rfl, rfl, rfl, rfl, fun hlinked => ?_⟩
    rw [hno] at hlinked
    cases hlinked.2.2
  | openHalt hpc _ =>
    simp only [hpc] at hc
    exact ⟨⟨hc.1, hc.2.1⟩, rfl, rfl, rfl, rfl, fun _ => ChildPc.noConfusion⟩
  | stop hpc _ =>
    simp only [hpc] at hc
    exact ⟨.inl ⟨rfl, hc⟩, rfl, rfl, rfl, rfl, by simp⟩
  | openReady hpc _ | openStart hpc _ | again hpc _ | getHalt hpc | create j hj hpc
  | created j hpc _ | join j hj hpc _ | joined j hpc _ =>
    simp only [hpc] at hc
    exact ⟨hc, rfl, rfl, rfl, rfl, fun _ => ChildPc.noConfusion⟩

end Steps

theorem tokens_initial : Tokens (initial check checks : State N M) where
  counts := Nat.zero_le N
  ready := (tally_eq_zero.mpr fun _ => rfl).symm
  start := (Nat.zero_add _).trans (tally_eq_zero.mpr fun _ => rfl)
  halt := rfl
  linked _ := ⟨rfl, rfl, rfl⟩
  forked i := ⟨fun _ => Nat.zero_le i, fun _ => rfl⟩
  placed _ := ⟨rfl, rfl, rfl⟩
  lock _ h := absurd rfl h
  alive _ i h := by cases h

/-- The main process forks the next child. -/
theorem Tokens.fork {k : ℕ} (hs : Tokens s) (hinv : Inv checks s) (hmain : s.main = .fork k)
    (hk : k < N) :
    Tokens { s with
      child := update s.child ⟨k, hk⟩ ((s.child ⟨k, hk⟩).forked s.fileSem)
      main := .fork (k + 1) } := by
  obtain ⟨hcounts, hready, hstart, hhalt, hlinked, hforked, hplaced, hlock, halive⟩ := hs
  rw [hmain] at hcounts hstart hhalt hlinked hforked halive
  have hunborn := hinv.unborn k hmain ⟨k, hk⟩ le_rfl
  have hreadied := tally_update Child.readied s.child ⟨k, hk⟩
    ((s.child ⟨k, hk⟩).forked s.fileSem)
  have hbegins := tally_update Child.begins s.child ⟨k, hk⟩
    ((s.child ⟨k, hk⟩).forked s.fileSem)
  have hsame : ((s.child ⟨k, hk⟩).forked s.fileSem).readied = (s.child ⟨k, hk⟩).readied := rfl
  have hsame' : ((s.child ⟨k, hk⟩).forked s.fileSem).begins = (s.child ⟨k, hk⟩).begins := rfl
  refine ⟨hk, ?_, ?_, hhalt, hlinked, fun i => ?_, ?_, ?_, fun hnot => ?_⟩
  · show s.ready.value = tally Child.readied (update s.child ⟨k, hk⟩ _)
    omega
  · show s.start.value + tally Child.begins (update s.child ⟨k, hk⟩ _) = 0
    simp only [MainPc.startPosts] at hstart
    omega
  · show (update s.child ⟨k, hk⟩ _ i).pc = .notForked ↔ k + 1 ≤ i.val
    obtain rfl | hne := eq_or_ne i ⟨k, hk⟩
    · rw [Function.update_self]
      refine ⟨fun h => ?_, fun h => absurd h (Nat.not_succ_le_self k)⟩
      cases h
    · have hval : i.val ≠ k := fun heq => hne (Fin.ext heq)
      rw [Function.update_of_ne hne, hforked i]
      simp only [MainPc.forks]
      omega
  · refine (Function.forall_update_iff s.child fun _ c => c.Placed).mpr
      ⟨?_, fun i _ => hplaced i⟩
    rw [hunborn]
    exact ⟨rfl, rfl, rfl⟩
  · refine (Function.forall_update_iff s.child fun _ c => c.pc ≠ .notForked →
      c.fileSem + c.inside = 1).mpr ⟨fun _ => ?_, fun i _ => hlock i⟩
    have hinside : (Child.unborn (checks ⟨k, hk⟩) : Child M).inside = 0 :=
      (filled_absent (m := M) 0).tally_zero rfl
    rw [hunborn, hinv.fileSem]
    exact congrArg (1 + ·) hinside
  · refine (Function.forall_update_iff s.child fun _ c => c.pc ≠ .exited 1).mpr
      ⟨fun hpc => ?_, fun i _ => halive hnot i⟩
    cases hpc

theorem Tokens.mainProcess (hs : Tokens s) (hinv : Inv checks s) (h : mainProcess s = some s') :
    Tokens s' := by
  have hforked := hs.forked
  obtain ⟨hcounts, hready, hstart, hhalt, hlinked, -, hplaced, hlock, halive⟩ := id hs
  -- no name is missing before all posts have been made
  have hnames : ¬ s.main.Notified → s.ready.linked ≠ false ∧ s.start.linked ≠ false ∧
      s.halt.linked ≠ false := fun hnot => by
    obtain ⟨hready, hstart, hhalt⟩ := hlinked hnot
    simp [hready, hstart, hhalt]
  cases main_step h with
  | fork k hk hmain => exact hs.fork hinv hmain hk
  | noReady hmain hno => exact absurd hno (hnames (by rw [hmain]; exact id)).1
  | noStart hmain hno => exact absurd hno (hnames (by rw [hmain]; exact id)).2.1
  | noHalt hmain hno => exact absurd hno (hnames (by rw [hmain]; exact id)).2.2
  | postStart k hmain hk =>
    rw [hmain] at hstart hhalt hlinked hforked halive
    refine ⟨hk, hready, ?_, hhalt, hlinked, hforked, hplaced, hlock, halive⟩
    show s.start.value + 1 + tally Child.begins s.child = k + 1
    simp only [MainPc.startPosts] at hstart
    omega
  | postHalt k hmain hk =>
    rw [hmain] at hstart hhalt hlinked hforked halive
    exact ⟨hk, hready, hstart, congrArg (· + 1) hhalt, hlinked, hforked, hplaced, hlock, halive⟩
  | forked k hmain hk | started k hmain hk =>
    rw [hmain] at hcounts hstart hhalt hlinked hforked halive
    obtain rfl : k = N := Nat.le_antisymm hcounts (Nat.le_of_not_lt hk)
    exact ⟨trivial, hready, hstart, hhalt, hlinked, hforked, hplaced, hlock, halive⟩
  | halted k hmain hk =>
    rw [hmain] at hcounts hstart hhalt hforked
    obtain rfl : k = N := Nat.le_antisymm hcounts (Nat.le_of_not_lt hk)
    exact ⟨trivial, hready, hstart, hhalt, fun hnot => absurd trivial hnot, hforked, hplaced,
      hlock, fun hnot => absurd trivial hnot⟩
  | openStart hmain _ | openHalt hmain _ =>
    rw [hmain] at hstart hhalt hlinked hforked halive
    exact ⟨Nat.zero_le N, hready, hstart, hhalt, hlinked, hforked, hplaced, hlock, halive⟩
  | openReady hmain _ | poll hmain _ | polled hmain _ | getReady hmain | sleep hmain =>
    rw [hmain] at hstart hhalt hlinked hforked halive
    exact ⟨trivial, hready, hstart, hhalt, hlinked, hforked, hplaced, hlock, halive⟩
  | unlinkReady hmain | unlinkStart hmain | unlinkHalt hmain | parse k index hmain _
  | parsed k hmain _ =>
    rw [hmain] at hstart hhalt hforked
    exact ⟨trivial, hready, hstart, hhalt, fun hnot => absurd trivial hnot, hforked, hplaced,
      hlock, fun hnot => absurd trivial hnot⟩

/-- A step that changes one child, which has been forked, and keeps the tokens. -/
theorem Tokens.of_child (hs : Tokens s) {c : Child M} (hchild : s'.child = update s.child i c)
    (hmain : s'.main = s.main) (hborn : (s.child i).pc ≠ .notForked) (hborn' : c.pc ≠ .notForked)
    (hplaced : c.Placed) (hlock : c.fileSem + c.inside = 1)
    (hready : s'.ready.value + (s.child i).readied = s.ready.value + c.readied)
    (hstart : s'.start.value + c.begins = s.start.value + (s.child i).begins)
    (hhalt : s'.halt = s.halt) (hlinked : s'.ready.linked = s.ready.linked)
    (hlinked' : s'.start.linked = s.start.linked) (halive : ¬ s.main.Notified → c.pc ≠ .exited 1) :
    Tokens s' := by
  have hreadied := tally_update Child.readied s.child i c
  have hbegins := tally_update Child.begins s.child i c
  have hreadys := hs.ready
  have hstarts := hs.start
  refine ⟨hmain ▸ hs.counts, ?_, ?_, by rw [hhalt, hmain]; exact hs.halt, ?_, ?_, ?_, ?_, ?_⟩
  · rw [hchild]
    omega
  · rw [hchild, hmain]
    omega
  · rw [hmain, hlinked, hlinked', hhalt]
    exact hs.linked
  · rw [hchild, hmain]
    refine (Function.forall_update_iff s.child fun k c => c.pc = .notForked ↔ _).mpr
      ⟨⟨fun h => absurd h hborn', fun h => absurd ((hs.forked i).mpr h) hborn⟩,
        fun k _ => hs.forked k⟩
  · rw [hchild]
    exact (Function.forall_update_iff s.child fun _ c => c.Placed).mpr
      ⟨hplaced, fun k _ => hs.placed k⟩
  · rw [hchild]
    exact (Function.forall_update_iff s.child fun _ c => c.pc ≠ .notForked →
      c.fileSem + c.inside = 1).mpr ⟨fun _ => hlock, fun k _ => hs.lock k⟩
  · rw [hchild, hmain]
    intro hnot
    exact (Function.forall_update_iff s.child fun _ c => c.pc ≠ .exited 1).mpr
      ⟨halive hnot, fun k _ => hs.alive hnot k⟩

theorem Tokens.step {t : Agent N M} (hs : Tokens s) (hinv : Inv checks s)
    (h : step s t = some s') : Tokens s' := by
  cases t with
  | main => exact hs.mainProcess hinv h
  | child i =>
    obtain ⟨ready, start, c, hc, rfl⟩ := child_eq_some.mp h
    obtain ⟨hplaced, hready, hstart, hlinked, hlinked', halive⟩ :=
      childProcess_tokens hc (hs.placed i)
    obtain ⟨hborn, hborn'⟩ := childProcess_forked hc
    exact hs.of_child rfl rfl hborn hborn' hplaced
      ((childProcess_lock hc (hinv.ok i)).trans (hs.lock i hborn)) hready hstart rfl hlinked
      hlinked' fun hnot => halive (hs.linked hnot)
  | thread i j =>
    obtain ⟨sem, log, pc, hf, rfl⟩ := thread_eq_some.mp h
    obtain ⟨hsem, -, hne, -⟩ := thread_function_spec hf
    have hborn : (s.child i).pc ≠ .notForked := by
      intro hpc
      rcases (hinv.ok i).of_thread hne with ⟨k, hk⟩ | ⟨k, hk⟩ <;> rw [hpc] at hk <;> cases hk
    refine hs.of_child rfl rfl hborn hborn (hs.placed i) ?_ rfl rfl rfl rfl rfl
      fun hnot => hs.alive hnot i
    have htally := tally_update ThreadPc.inside (s.child i).thread j pc
    have hlock := hs.lock i hborn
    simp only [Child.inside] at hlock ⊢
    omega

theorem tokens (h : (program check checks).Reachable s) : Tokens s := by
  refine h.invariant (I := Tokens) ?_ fun s t s' hr hs hstep => hs.step (inv hr) hstep
  rintro s rfl
  exact tokens_initial

/-! ### The account -/

/-- Written and pending records make what the child owes. -/
def Balanced (s : State N M) : Prop :=
  ∀ i, s.log.records.count i + (s.child i).pending = (s.child i).owed

/-- A step of a child that appends nothing. -/
theorem Balanced.of_child (hs : Balanced s) {c : Child M} (hchild : s'.child = update s.child i c)
    (hlog : s'.log = s.log)
    (howed : c.pending + (s.child i).owed = (s.child i).pending + c.owed) : Balanced s' := by
  intro k
  rw [hchild, hlog]
  refine (Function.forall_update_iff s.child fun k c =>
    s.log.records.count k + c.pending = c.owed).mpr ⟨?_, fun k _ => hs k⟩ k
  have := hs i
  omega

/-- The thread turns its pending record into a written one. -/
theorem Balanced.thread (hs : Balanced s) (h : thread s i j = some s') : Balanced s' := by
  obtain ⟨sem, log, pc, hf, rfl⟩ := thread_eq_some.mp h
  intro k
  refine (Function.forall_update_iff s.child fun k c =>
    log.records.count k + c.pending = c.owed).mpr ⟨?_, fun k hk => ?_⟩ k
  · have haccount := hs i
    have hcount := thread_function_count hf i
    have htally := tally_update ThreadPc.pending (s.child i).thread j pc
    rw [if_pos rfl, if_pos rfl] at hcount
    simp only [Child.pending, Child.owed] at haccount ⊢
    omega
  · have haccount := hs k
    have hcount := thread_function_count hf k
    rw [if_neg (Ne.symm hk), if_neg (Ne.symm hk)] at hcount
    omega

theorem Balanced.step {t : Agent N M} (hs : Balanced s) (hinv : Inv checks s)
    (h : step s t = some s') : Balanced s' := by
  cases t with
  | main =>
    obtain ⟨hlog, -, ⟨k, hmain, -, hk, hchild⟩ | ⟨hchild, -⟩⟩ := mainProcess_frame h
    · have hunborn := hinv.unborn k hmain ⟨k, hk⟩ le_rfl
      refine hs.of_child hchild hlog ?_
      rw [hunborn]
      rfl
    · intro i
      rw [hchild, hlog]
      exact hs i
  | child i =>
    obtain ⟨ready, start, c, hc, rfl⟩ := child_eq_some.mp h
    exact hs.of_child rfl rfl (childProcess_owed hc (hinv.ok i))
  | thread i j => exact hs.thread h

/-- **No record is lost**: in every reachable state the records of child `i` in the log and those
that its threads have yet to write are `M` for each round it has completed and one for each thread
of the round it is in. -/
theorem account_inv (h : (program check checks).Reachable s) : Balanced s := by
  refine h.invariant (I := Balanced) ?_ fun s t s' hr hs hstep => hs.step (inv hr) hstep
  rintro s rfl i
  exact congrArg (0 + ·) ((filled_absent (m := M) 0).tally_zero rfl)

/-! ### After the last post of `halt_sem` -/

/-- The threads that a child has yet to create once the value of `halt_sem` is `N`: those of the
round it is in, and of one more if it has not read that value. -/
def Child.toCreate (N : ℕ) (c : Child M) : ℕ :=
  match c.pc with
  | .exited _ => 0
  | .getHalt => M
  | .create j => M - j + if c.check ≠ N then M else 0
  | _ => if c.check ≠ N then M else 0

/-- The records that a child has yet to append once the value of `halt_sem` is `N`. -/
def Child.budget (N : ℕ) (c : Child M) : ℕ := c.pending + c.toCreate N

theorem Child.Ok.budget_le {c : Child M} (hc : c.Ok) : c.budget N ≤ 2 * M := by
  have hpending := hc.pending_le
  have hcreated := hc.created_le
  rw [Child.budget, Child.toCreate]
  cases hpc : c.pc <;> simp only [hpc, ChildPc.created] at hpending hcreated ⊢ <;>
    (try split_ifs) <;> omega

/-- A child that reads the value `N` does not begin another round. -/
theorem childProcess_budget {ready start halt ready' start' : NamedSem} {c c' : Child M}
    (h : childProcess N ready start halt c = some (ready', start', c')) (hc : c.Ok)
    (hhalt : halt.value = N) : c'.budget N ≤ c.budget N := by
  have howed := childProcess_owed h hc
  have hcreated := hc.created_le
  simp only [Child.owed, Child.budget, Child.toCreate] at howed ⊢
  cases child_step h with
  | create j hj hpc | join j hj hpc _ =>
    simp only [hpc, ChildPc.created] at howed ⊢
    omega
  | created j hpc hj =>
    simp only [hpc, ChildPc.created] at howed hcreated ⊢
    omega
  | joined j hpc _ =>
    simp only [hpc, ChildPc.created, Nat.mul_add] at howed ⊢
    omega
  | getHalt hpc =>
    -- the value read stops the loop after the round that begins
    simp only [hpc, ChildPc.created, hhalt] at howed ⊢
    simp
    omega
  | again hpc hcheck =>
    simp only [hpc, ChildPc.created, if_pos hcheck] at howed ⊢
    omega
  | openReady hpc _ | noReady hpc _ | postReady hpc | openStart hpc _ | noStart hpc _
  | waitStart hpc _ | openHalt hpc _ | noHalt hpc _ | stop hpc _ =>
    simp only [hpc, ChildPc.created] at howed ⊢
    (try split_ifs) <;> omega

/-- What a step appends to the log, against the budget of every child. -/
def Within (s s' : State N M) (appended : List (Fin N)) : Prop :=
  s'.log.records = s.log.records ++ appended ∧
    ∀ i, appended.count i + (s'.child i).budget N ≤ (s.child i).budget N

theorem Within.refl (s : State N M) : Within s s [] :=
  ⟨(List.append_nil _).symm, fun i => by rw [List.count_nil, Nat.zero_add]⟩

theorem Within.trans {u : State N M} {xs ys : List (Fin N)} (h₁ : Within s u xs)
    (h₂ : Within u s' ys) : Within s s' (xs ++ ys) := by
  constructor
  · rw [h₂.1, h₁.1, List.append_assoc]
  · intro i
    have hxs := h₁.2 i
    have hys := h₂.2 i
    rw [List.count_append]
    omega

/-- A step of one child that appends nothing. -/
theorem Within.of_child {c : Child M} (hchild : s'.child = update s.child i c)
    (hlog : s'.log = s.log) (hbudget : c.budget N ≤ (s.child i).budget N) : Within s s' [] := by
  refine ⟨by rw [hlog, List.append_nil], ?_⟩
  simp only [hchild, List.count_nil, Nat.zero_add]
  exact (Function.forall_update_iff s.child fun k c => c.budget N ≤ (s.child k).budget N).mpr
    ⟨hbudget, fun k _ => le_rfl⟩

theorem mainProcess_within (hinv : Inv checks s) (h : mainProcess s = some s') :
    Within s s' [] := by
  obtain ⟨hlog, -, ⟨k, hmain, -, hk, hchild⟩ | ⟨hchild, -⟩⟩ := mainProcess_frame h
  · refine .of_child hchild hlog ?_
    rw [hinv.unborn k hmain ⟨k, hk⟩ le_rfl]
    exact le_rfl
  · refine ⟨by rw [hlog, List.append_nil], fun i => ?_⟩
    rw [hchild, List.count_nil, Nat.zero_add]

/-- A thread spends the budget of its child by writing. -/
theorem thread_within (h : thread s i j = some s') : ∃ appended, Within s s' appended := by
  obtain ⟨sem, log, pc, hf, rfl⟩ := thread_eq_some.mp h
  have htally := tally_update ThreadPc.pending (s.child i).thread j pc
  obtain ⟨-, ⟨rfl, hp⟩ | ⟨rfl, hp⟩, -, -⟩ := thread_function_spec hf
  · refine ⟨[], .of_child rfl rfl ?_⟩
    simp only [Child.budget, Child.pending, Child.toCreate]
    omega
  · refine ⟨[i], rfl, (Function.forall_update_iff s.child fun k c =>
      [i].count k + c.budget N ≤ (s.child k).budget N).mpr ⟨?_, fun k hk => ?_⟩⟩
    · rw [List.count_singleton_self]
      simp only [Child.budget, Child.pending, Child.toCreate]
      omega
    · rw [List.count_singleton, if_neg (by simpa using Ne.symm hk), Nat.zero_add]

/-- The value of `halt_sem` gets to `N` and no further. -/
theorem halt_step {t : Agent N M} (hs : Tokens s) (h : step s t = some s')
    (hhalt : s.halt.value = N) : s'.halt.value = N := by
  cases t with
  | main =>
    have hvalue := hs.halt
    have hstep : mainProcess s = some s' := h
    cases main_step hstep with
    | postHalt k hmain hk =>
      rw [hmain, MainPc.haltPosts] at hvalue
      omega
    | fork k hk hmain | forked k hmain _ | openReady hmain _ | noReady hmain _ | poll hmain _
    | polled hmain _ | getReady hmain | openStart hmain _ | noStart hmain _ | postStart k hmain _
    | started k hmain _ | sleep hmain | openHalt hmain _ | noHalt hmain _ | halted k hmain _
    | unlinkReady hmain | unlinkStart hmain | unlinkHalt hmain | parse k index hmain _
    | parsed k hmain _ =>
      exact hhalt
  | child i =>
    obtain ⟨ready, start, c, hc, rfl⟩ := child_eq_some.mp h
    exact hhalt
  | thread i j =>
    obtain ⟨sem, log, pc, -, rfl⟩ := thread_eq_some.mp h
    exact hhalt

theorem step_within {t : Agent N M} (hinv : Inv checks s) (h : step s t = some s')
    (hhalt : s.halt.value = N) : ∃ appended, Within s s' appended := by
  cases t with
  | main => exact ⟨[], mainProcess_within hinv h⟩
  | child i =>
    obtain ⟨ready, start, c, hc, rfl⟩ := child_eq_some.mp h
    exact ⟨[], .of_child rfl rfl (childProcess_budget hc (hinv.ok i) hhalt)⟩
  | thread i j => exact thread_within h

theorem run_within {ts : List (Agent N M)} (hr : (program check checks).Reachable s)
    (h : (program check checks).run s ts = some s') (hhalt : s.halt.value = N) :
    ∃ appended, Within s s' appended := by
  refine (Machine.run_invariant (I := fun u => (program check checks).Reachable u ∧
    u.halt.value = N ∧ ∃ appended, Within s u appended) (fun u t u' hu hstep => ?_) h
    ⟨hr, hhalt, [], .refl s⟩).2.2
  obtain ⟨hru, hhaltu, xs, hxs⟩ := hu
  have hru' := hru.step t hstep
  obtain ⟨ys, hys⟩ := step_within (inv hru) hstep hhaltu
  exact ⟨hru', halt_step (tokens hru) hstep hhaltu, xs ++ ys, hxs.trans hys⟩

/-- **The account of the log, and bounded work after the last post of `halt_sem`**: at any time
the records of a child in the file and those that its threads have yet to write are `M` for each
of its rounds and one for each thread of the round it is in; once the value of `halt_sem` is `N`,
the file grows by whole records, at most `2 * M` of each child. -/
theorem bounded_after_halt (N M : ℕ) (check : ℤ) (checks : Fin N → ℤ) (s : State N M)
    (h : (program check checks).Reachable s) :
    (∀ i, s.log.records.count i + (s.child i).pending = (s.child i).owed) ∧
    (s.halt.value = N → ∀ ts s', (program check checks).run s ts = some s' →
      ∃ appended : List (Fin N),
        s'.log.bytes = s.log.bytes ++ appended.flatMap (fun i => intBytes (Log.childId i)) ∧
        ∀ i, appended.count i ≤ 2 * M) := by
  refine ⟨account_inv h, fun hhalt ts s' hrun => ?_⟩
  obtain ⟨appended, hrecords, hbudget⟩ := run_within h hrun hhalt
  have hwhole : s.log.bytes = _ := (inv h).whole
  have hwhole' : s'.log.bytes = _ := (inv (h.run hrun)).whole
  refine ⟨appended, ?_, fun i => ?_⟩
  · rw [hwhole', hwhole, hrecords, List.flatMap_append]
  · have hle := ((inv h).ok i).budget_le (N := N)
    have := hbudget i
    omega

/-- One child, which reads the value of `halt_sem` just before the post. -/
def staleSchedule : List (Agent 1 1) :=
  List.replicate 3 .main ++ List.replicate 2 (.child (Fin.last 0)) ++ List.replicate 8 .main ++
    List.replicate 5 (.child (Fin.last 0)) ++ [.main]

/-- The round that the child is in, and another one. -/
def twoRounds : List (Agent 1 1) :=
  [.child (Fin.last 0)] ++ List.replicate 5 (.thread (Fin.last 0) (Fin.last 0)) ++
    List.replicate 5 (.child (Fin.last 0)) ++ [.child (Fin.last 0)] ++
      List.replicate 3 (.thread (Fin.last 0) (Fin.last 0))

/-- The child appends as many records as the bound allows. -/
theorem bounded_after_halt_stale : ∃ s s' : State 1 1, ∃ appended : List (Fin 1),
    s.halt.value = 1 ∧ (program 0 fun _ => 0).run s twoRounds = some s' ∧
      s'.log.records.length = s.log.records.length + 2 * 1 ∧
      s'.log.bytes = s.log.bytes ++ appended.flatMap (fun i => intBytes (Log.childId i)) ∧
      ∀ i, appended.count i ≤ 2 * 1 := by
  have hex : ∃ s s' : State 1 1, (program 0 fun _ => 0).Reachable s ∧ s.halt.value = 1 ∧
      (program 0 fun _ => 0).run s twoRounds = some s' ∧
      s'.log.records.length = s.log.records.length + 2 * 1 :=
    ⟨_, _, Machine.reachable_iff_run.mpr ⟨_, staleSchedule, rfl, rfl⟩, rfl, rfl, rfl⟩
  obtain ⟨s, s', hs, hhalt, hrun, hlength⟩ := hex
  obtain ⟨appended, hbytes, hle⟩ := (bounded_after_halt 1 1 0 _ s hs).2 hhalt twoRounds s' hrun
  exact ⟨s, s', appended, hhalt, hrun, hlength, hbytes, hle⟩

end Polling
