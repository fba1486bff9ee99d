/-
The riepilogo program of Lab04 comes to its end.

The main process waits in a loop that reads the value of `ready_sem`, so that it never blocks, and
its own steps bring nothing nearer as long as a child has yet to post.  After the last post of
`halt_sem` the children have at most two rounds before them; `parseOutput` reads a log that may be
growing, but not for ever.

* `notifies` — the main process comes to its last post of `halt_sem`;
* `step_left` — from then on every step lowers one measure;
* `ends_after_all` — everybody comes to an end, whatever the variables `check` contain at first,
  and what `parseOutput` misses is at most `2 * M` records of each child.
-/
import SistemiDiCalcolo.PollingAccount
import SistemiDiCalcolo.ParseOutput
import SistemiDiCalcolo.Fairness

open Function (update)
open AccessLog Machine

namespace Polling

variable {N M : ℕ} {check : ℤ} {checks : Fin N → ℤ} {s s' : State N M} {t : Agent N M}
variable {i : Fin N} {j : Fin M}

/-! ### Up to the last post -/

/-- The main process reads the value of `ready_sem` in vain. -/
def Polls (s : State N M) : Prop :=
  s.ready.value ≠ N ∧ (s.main = .testReady ∧ s.check ≠ N ∨ s.main = .getReady)

/-- The steps that the main process has before it up to its last post, not counting those of its
poll that are in vain. -/
def mainEarly (s : State N M) : ℕ :=
  match s.main with
  | .fork k => 14 + 2 * N + (N - k)
  | .openReady => 13 + 2 * N
  | .testReady => if s.check = N then 10 + 2 * N else 12 + 2 * N
  | .getReady => if s.ready.value = N then 11 + 2 * N else 12 + 2 * N
  | .openStart => 9 + 2 * N
  | .postStart k => 8 + N + (N - k)
  | .sleep => 7 + N
  | .openHalt => 6 + N
  | .postHalt k => 5 + (N - k)
  | .unlinkReady | .unlinkStart | .unlinkHalt | .parse _ | .done | .failed => 0

/-- The steps of a child up to its post of `ready_sem`. -/
def Child.unposted (c : Child M) : ℕ :=
  match c.pc with
  | .notForked | .openReady => 2
  | .postReady => 1
  | _ => 0

/-- What the main process has before it, and the posts it waits for. -/
def early (s : State N M) : ℕ := mainEarly s + tally Child.unposted s.child

/-- The main process where its steps count, and else every child that has yet to post. -/
def brings (s : State N M) : Agent N M → Prop
  | .main => ¬ Polls s
  | .child i => Polls s ∧ ((s.child i).pc = .openReady ∨ (s.child i).pc = .postReady)
  | .thread _ _ => False

/-- The main process never waits. -/
theorem mainProcess_ne_none (hs : Tokens s) (hmain : s.main ≠ .done) : mainProcess s ≠ none := by
  have hcounts := hs.counts
  unfold mainProcess
  cases hpc : s.main with
  | failed =>
    rw [hpc] at hcounts
    exact hcounts.elim
  | done => exact absurd hpc hmain
  | fork k | postStart k | postHalt k | parse k =>
    simp only
    split <;> exact Option.some_ne_none _
  | openReady | testReady | getReady | openStart | sleep | openHalt | unlinkReady | unlinkStart
  | unlinkHalt =>
    exact Option.some_ne_none _

/-- Where a child is that has not posted. -/
theorem Child.Placed.unposted {c : Child M} (hc : c.Placed) (hposted : c.posted = false)
    (hborn : c.pc ≠ .notForked) (halive : c.pc ≠ .exited 1) :
    c.pc = .openReady ∨ c.pc = .postReady := by
  unfold Child.Placed at hc
  cases hpc : c.pc with
  | openReady => exact .inl rfl
  | postReady => exact .inr rfl
  | notForked => exact absurd hpc hborn
  | openStart | waitStart | openHalt | testHalt | getHalt | create j | join j =>
    simp only [hpc] at hc
    rw [hc.1] at hposted
    cases hposted
  | exited status =>
    simp only [hpc] at hc
    rcases hc with ⟨-, hc, -⟩ | ⟨rfl, -⟩
    · rw [hc] at hposted
      cases hposted
    · exact absurd hpc halive

/-- A child that has not posted is on its way to. -/
theorem exists_unposted (hs : Tokens s) (hpolls : Polls s) :
    ∃ i, (s.child i).pc = .openReady ∨ (s.child i).pc = .postReady := by
  obtain ⟨hvalue, hmain⟩ := hpolls
  have hnot : ¬ s.main.Notified := by
    rcases hmain with ⟨hmain, -⟩ | hmain <;> rw [hmain] <;> exact id
  have hforks : s.main.forks N = N := by
    rcases hmain with ⟨hmain, -⟩ | hmain <;> rw [hmain] <;> rfl
  have hlt : tally Child.readied s.child < Fintype.card (Fin N) := by
    have hle : tally Child.readied s.child ≤ Fintype.card (Fin N) * 1 :=
      tally_le_card_mul fun i => by
        rw [Child.readied]
        split_ifs <;> simp
    rw [← hs.ready, Fintype.card_fin] at hle ⊢
    omega
  obtain ⟨i, hi⟩ := exists_eq_zero_of_tally_lt hlt
  have hposted : (s.child i).posted = false := by
    rw [Child.readied] at hi
    split_ifs at hi with hposted
    exact Bool.eq_false_iff.mpr hposted
  have hborn : (s.child i).pc ≠ .notForked := fun hpc =>
    absurd ((hs.forked i).mp hpc) (by rw [hforks]; exact Nat.not_le.mpr i.isLt)
  exact ⟨i, (hs.placed i).unposted hposted hborn (hs.alive hnot i)⟩

theorem exists_brings (hs : Tokens s) : ∃ t, brings s t := by
  by_cases hpolls : Polls s
  · obtain ⟨i, hi⟩ := exists_unposted hs hpolls
    exact ⟨.child i, hpolls, hi⟩
  · exact ⟨.main, hpolls⟩

theorem step_ne_none_of_brings (hs : Tokens s) (hnot : ¬ s.main.Notified) (h : brings s t) :
    step s t ≠ none := by
  cases t with
  | main =>
    refine mainProcess_ne_none hs fun hmain => hnot ?_
    rw [hmain]
    trivial
  | child i =>
    obtain ⟨-, hpc | hpc⟩ := h <;> simp [step, child, childProcess, hpc]
  | thread i j => exact h.elim

/-- While a child has yet to post, the value of `ready_sem` is below `N`. -/
theorem Tokens.ready_lt (hs : Tokens s) (hposted : (s.child i).posted = false) :
    s.ready.value < N := by
  by_contra hle
  have hone : (s.child i).readied = 1 := by
    refine eq_one_of_card_le_tally (fun c => ?_) ?_ i
    · rw [Child.readied]
      split_ifs <;> simp
    · rw [← hs.ready, Fintype.card_fin]
      exact Nat.not_lt.mp hle
  rw [Child.readied, hposted] at hone
  cases hone

/-- A step of a child brings its post nearer, or has nothing to do with `ready_sem`. -/
theorem childProcess_posts {ready start halt ready' start' : NamedSem} {c c' : Child M}
    (h : childProcess N ready start halt c = some (ready', start', c')) :
    (c.pc = .openReady ∨ c.pc = .postReady) ∧ c'.unposted < c.unposted ∧
        (ready' = ready ∨ ready' = ready.post) ∨
      ¬ (c.pc = .openReady ∨ c.pc = .postReady) ∧ ready' = ready ∧ c'.unposted = c.unposted := by
  cases child_step h with
  | openReady hpc _ | noReady hpc _ =>
    exact .inl ⟨.inl hpc, by simp [Child.unposted, hpc], .inl rfl⟩
  | postReady hpc => exact .inl ⟨.inr hpc, by simp [Child.unposted, hpc], .inr rfl⟩
  | openStart hpc _ | noStart hpc _ | waitStart hpc _ | openHalt hpc _ | noHalt hpc _ | again hpc _
  | stop hpc _ | getHalt hpc | create j hj hpc | created j hpc _ | join j hj hpc _
  | joined j hpc _ =>
    exact .inr ⟨by simp [hpc], rfl, by simp [Child.unposted, hpc]⟩

/-- A step of the main process that is not in vain. -/
theorem mainProcess_early (hnot : ¬ s.main.Notified) (hpolls : ¬ Polls s)
    (h : mainProcess s = some s') : mainEarly s' < mainEarly s := by
  have hvalue : s.main = .testReady ∧ s.check ≠ N ∨ s.main = .getReady → s.ready.value = N :=
    fun hmain => not_not.mp fun hne => hpolls ⟨hne, hmain⟩
  cases main_step h with
  | poll hmain hcheck =>
    simp only [mainEarly, hmain, if_neg hcheck, if_pos (hvalue (.inl ⟨hmain, hcheck⟩))]
    omega
  | getReady hmain =>
    have hready : s.ready.value = N := hvalue (.inr hmain)
    simp only [mainEarly, hmain, hready, if_true]
    omega
  | polled hmain hcheck =>
    simp only [mainEarly, hmain, if_pos hcheck]
    omega
  | openReady hmain _ =>
    simp only [mainEarly, hmain]
    split_ifs <;> omega
  | fork k hk hmain | forked k hmain _ | noReady hmain _ | openStart hmain _ | noStart hmain _
  | postStart k hmain _ | started k hmain _ | sleep hmain | openHalt hmain _ | noHalt hmain _
  | postHalt k hmain _ | halted k hmain _ =>
    simp only [mainEarly, hmain]
    omega
  | unlinkReady hmain | unlinkStart hmain | unlinkHalt hmain | parse k index hmain _
  | parsed k hmain _ =>
    rw [hmain] at hnot
    exact absurd trivial hnot

/-- In vain the main process stays in its poll. -/
theorem mainProcess_polls (hpolls : Polls s) (h : mainProcess s = some s') :
    Polls s' ∧ mainEarly s' = mainEarly s ∧ s'.child = s.child := by
  obtain ⟨hvalue, ⟨hmain, hcheck⟩ | hmain⟩ := hpolls
  · simp only [mainProcess, hmain, ne_eq, hcheck, not_false_eq_true, if_true] at h
    cases h
    exact ⟨⟨hvalue, .inr rfl⟩, by simp [mainEarly, hmain, hcheck, hvalue], rfl⟩
  · simp only [mainProcess, hmain] at h
    cases h
    have hcheck : (s.ready.value : ℤ) ≠ N := by exact_mod_cast hvalue
    exact ⟨⟨hvalue, .inl ⟨rfl, hcheck⟩⟩, by simp [mainEarly, hmain, hcheck, hvalue], rfl⟩

/-- The main process brings no post nearer and takes none back. -/
theorem mainProcess_unposted (hinv : Inv checks s) (h : mainProcess s = some s') :
    tally Child.unposted s'.child = tally Child.unposted s.child := by
  obtain ⟨-, -, ⟨k, hmain, -, hk, hchild⟩ | ⟨hchild, -⟩⟩ := mainProcess_frame h
  · have htally := tally_update Child.unposted s.child ⟨k, hk⟩
      ((s.child ⟨k, hk⟩).forked s.fileSem)
    have hsame : ((s.child ⟨k, hk⟩).forked s.fileSem).unposted
        = (s.child ⟨k, hk⟩).unposted := by
      rw [hinv.unborn k hmain ⟨k, hk⟩ le_rfl]
      rfl
    rw [hsame] at htally
    rw [hchild]
    exact Nat.add_right_cancel htally
  · rw [hchild]

/-- Whoever moves, the one that brings the last post nearer has done so or still can. -/
theorem brings_step {u : Agent N M} (hinv : Inv checks s) (hs : Tokens s)
    (hnot : ¬ s.main.Notified) (ht : brings s t) (h : step s u = some s') :
    early s' < early s ∨ early s' = early s ∧ u ≠ t ∧ brings s' t := by
  cases u with
  | main =>
    have hunposted := mainProcess_unposted hinv h
    by_cases hpolls : Polls s
    · obtain ⟨hpolls', hearly, hchild⟩ := mainProcess_polls hpolls h
      refine .inr ⟨by rw [early, early, hearly, hunposted], ?_⟩
      cases t with
      | main => exact absurd hpolls ht
      | child i =>
        refine ⟨fun heq => ?_, hpolls', ?_⟩
        · cases heq
        · rw [hchild]
          exact ht.2
      | thread i j => exact ht.elim
    · refine .inl ?_
      have hlt := mainProcess_early hnot hpolls h
      rw [early, early, hunposted]
      omega
  | child i =>
    obtain ⟨ready, start, c, hc, rfl⟩ := child_eq_some.mp h
    have htally := tally_update Child.unposted s.child i c
    rcases childProcess_posts hc with ⟨hpc, hlt, hready⟩ | ⟨hpc, rfl, hsame⟩
    · refine .inl ?_
      have hplaced := hs.placed i
      have hposted : (s.child i).posted = false := by
        rcases hpc with hpc | hpc <;> rw [Child.Placed, hpc] at hplaced <;> exact hplaced.1
      have hvalue := hs.ready_lt hposted
      -- a post that makes the value `N` brings the main process nearer to the end of its poll
      have hmain : mainEarly { s with ready := ready, start := start, child := update s.child i c }
          ≤ mainEarly s := by
        simp only [mainEarly]
        split <;> try exact le_rfl
        rw [if_neg hvalue.ne]
        split_ifs <;> omega
      show mainEarly _ + tally Child.unposted (update s.child i c) < early s
      rw [early]
      omega
    · rw [hsame] at htally
      refine .inr ⟨?_, ?_, ?_⟩
      · show mainEarly s + tally Child.unposted (update s.child i c) = early s
        rw [early]
        omega
      · rintro rfl
        exact hpc ht.2
      · cases t with
        | main => exact ht
        | child k =>
          obtain ⟨hpolls, hpck⟩ := ht
          have hne : k ≠ i := fun heq => hpc (heq ▸ hpck)
          refine ⟨hpolls, ?_⟩
          show (update s.child i c k).pc = .openReady ∨ (update s.child i c k).pc = .postReady
          rw [Function.update_of_ne hne]
          exact hpck
        | thread k l => exact ht.elim
  | thread i j =>
    obtain ⟨sem, log, pc, -, rfl⟩ := thread_eq_some.mp h
    have htally := tally_update Child.unposted s.child i
      { s.child i with fileSem := sem, thread := update (s.child i).thread j pc }
    have hsame : ({ s.child i with
        fileSem := sem, thread := update (s.child i).thread j pc } : Child M).unposted
          = (s.child i).unposted := rfl
    rw [hsame] at htally
    refine .inr ⟨?_, ?_, ?_⟩
    · show mainEarly s + tally Child.unposted (update s.child i _) = early s
      rw [early, Nat.add_right_cancel htally]
    · rintro rfl
      exact ht
    · cases t with
      | main => exact ht
      | child k =>
        obtain ⟨hpolls, hpck⟩ := ht
        refine ⟨hpolls, ?_⟩
        show (update s.child i _ k).pc = .openReady ∨ (update s.child i _ k).pc = .postReady
        obtain rfl | hne := eq_or_ne k i
        · rw [Function.update_self]
          exact hpck
        · rw [Function.update_of_ne hne]
          exact hpck
      | thread k l => exact ht.elim

/-- **The notification**: whatever the variables `check` contain and whatever the children do, the
main process comes to its last post of `halt_sem`. -/
theorem notifies {e : (program (M := M) check checks).Execution}
    (hfair : e.Fair fun _ _ => False) : e.LeadsTo (fun _ => True) fun s => s.main.Notified := by
  refine hfair.leadsTo (μ := early) (H := brings) ?_ ?_ ?_
  · intro s t u s' hr _ hnot ht h
    exact .inr ⟨trivial, brings_step (inv hr) (tokens hr) hnot ht h⟩
  · intro s hr _ _
    exact exists_brings (tokens hr)
  · intro s t hr _ hnot ht
    exact ⟨step_ne_none_of_brings (tokens hr) hnot ht, id⟩

/-! ### From the last post on -/

/-- The steps that a thread has before it; the one that writes counts for two, since it gives
`parseOutput` another record to read. -/
def threadLeft : ThreadPc → ℕ
  | .waitSem => 6
  | .opening => 5
  | .writing => 4
  | .closing => 2
  | .posting => 1
  | .absent | .done => 0

/-- The steps of a child from the test of its loop on: none but its exit if it has read `N`, and a
round otherwise. -/
def Child.again (N : ℕ) (c : Child M) : ℕ := if c.check = N then 1 else 5 + 8 * M

/-- The steps that a child has before it once the value of `halt_sem` is `N`, with those of the
threads it has yet to create. -/
def Child.pcLeft (N : ℕ) (c : Child M) : ℕ :=
  match c.pc with
  | .notForked => 6 + c.again N
  | .openReady => 5 + c.again N
  | .postReady => 4 + c.again N
  | .openStart => 3 + c.again N
  | .waitStart => 2 + c.again N
  | .openHalt => 1 + c.again N
  | .testHalt => c.again N
  | .getHalt => 4 + 8 * M
  | .create j => 2 + M + 7 * (M - j) + c.again N
  | .join j => 1 + (M - j) + c.again N
  | .exited _ => 0

/-- The steps that a child and its threads have before them. -/
def Child.left (N : ℕ) (c : Child M) : ℕ := c.pcLeft N + tally threadLeft c.thread

/-- The steps that the main process has before it, in a log that does not grow. -/
def mainLate (s : State N M) : ℕ :=
  match s.main with
  | .unlinkReady => 4 + s.log.records.length
  | .unlinkStart => 3 + s.log.records.length
  | .unlinkHalt => 2 + s.log.records.length
  | .parse k => 1 + (s.log.records.length - k)
  | _ => 0

/-- What is left of the program. -/
def late (s : State N M) : ℕ := mainLate s + tally (Child.left N) s.child

theorem thread_function_left {sem sem' : ℕ} {log log' : Log N} {pc pc' : ThreadPc}
    (h : thread_function i sem log pc = some (sem', log', pc')) :
    threadLeft pc' + log'.records.length < threadLeft pc + log.records.length := by
  cases thread_step h with
  | writing =>
    simp only [threadLeft, Log.write, List.length_append, List.length_singleton]
    omega
  | waitSem _ | opening | closing | posting => exact Nat.add_lt_add_right (Nat.lt_succ_self _) _

/-- A child that reads the value `N` goes on to its exit. -/
theorem childProcess_left {ready start halt ready' start' : NamedSem} {c c' : Child M}
    (h : childProcess N ready start halt c = some (ready', start', c')) (hc : c.Ok)
    (hhalt : halt.value = N) : c'.left N < c.left N := by
  have htally := childProcess_tally (f := threadLeft) h hc rfl rfl
  have hcreated := hc.created_le
  simp only [Child.owed, threadLeft, Child.left, Child.pcLeft, Child.again] at htally ⊢
  cases child_step h with
  | getHalt hpc =>
    simp only [hpc, hhalt, if_true]
    omega
  | again hpc hcheck =>
    simp only [hpc, if_neg hcheck]
    omega
  | stop hpc hcheck =>
    simp only [hpc, if_pos hcheck]
    omega
  | created j hpc hj =>
    rw [hpc, ChildPc.created] at hcreated
    simp only [hpc]
    omega
  | create j hj hpc | join j hj hpc _ | joined j hpc _ | openReady hpc _ | noReady hpc _
  | postReady hpc | openStart hpc _ | noStart hpc _ | waitStart hpc _ | openHalt hpc _
  | noHalt hpc _ =>
    simp only [hpc, ChildPc.created] at htally ⊢
    omega

namespace MainPc

variable {p : MainPc}

theorem Notified.startPosts (h : p.Notified) : p.startPosts N = N := by
  cases p <;> first | rfl | exact h.elim

theorem Notified.haltPosts (h : p.Notified) : p.haltPosts N = N := by
  cases p <;> first | rfl | exact h.elim

theorem Notified.forks (h : p.Notified) : p.forks N = N := by
  cases p <;> first | rfl | exact h.elim

end MainPc

/-- `parseOutput` goes on while it finds records. -/
theorem mainProcess_late (hinv : Inv checks s) (hmain : s.main.Notified)
    (h : mainProcess s = some s') :
    s'.main.Notified ∧ s'.child = s.child ∧ mainLate s' < mainLate s := by
  cases main_step h with
  | parse k index hpc hindex =>
    have hlt : k < s.log.records.length := by
      obtain ⟨hk, -⟩ := List.getElem?_eq_some_iff.mp hindex
      rwa [hinv.whole.readInts, List.length_map] at hk
    refine ⟨trivial, rfl, ?_⟩
    simp only [mainLate, hpc]
    omega
  | parsed k hpc _ | unlinkReady hpc | unlinkStart hpc | unlinkHalt hpc =>
    refine ⟨trivial, rfl, ?_⟩
    simp only [mainLate, hpc]
    omega
  | fork k hk hpc | forked k hpc _ | openReady hpc _ | noReady hpc _ | poll hpc _ | polled hpc _
  | getReady hpc | openStart hpc _ | noStart hpc _ | postStart k hpc _ | started k hpc _
  | sleep hpc | openHalt hpc _ | noHalt hpc _ | postHalt k hpc _ | halted k hpc _ =>
    rw [hpc] at hmain
    exact hmain.elim

/-- The log grows by what a thread writes, and so does what `parseOutput` has to read. -/
theorem mainLate_log (hmain : s'.main = s.main)
    (hle : s.log.records.length ≤ s'.log.records.length) :
    mainLate s' + s.log.records.length ≤ mainLate s + s'.log.records.length := by
  rw [mainLate, mainLate, hmain]
  split <;> omega

/-- A thread that writes pays for the record. -/
theorem thread_late (h : thread s i j = some s') : s'.main = s.main ∧ late s' < late s := by
  obtain ⟨sem, log, pc, hf, heq⟩ := thread_eq_some.mp h
  have hmain : s'.main = s.main := by rw [← heq]
  have hlog : s'.log = log := by rw [← heq]
  obtain ⟨c, hchild, hc⟩ : ∃ c, s'.child = update s.child i c ∧
      c.left N = (s.child i).pcLeft N + tally threadLeft (update (s.child i).thread j pc) := by
    rw [← heq]
    exact ⟨_, rfl, rfl⟩
  have htally := tally_update (Child.left N) s.child i c
  have hthread := tally_update threadLeft (s.child i).thread j pc
  have hlt := thread_function_left hf
  have hgrows : s.log.records.length ≤ s'.log.records.length := by
    rw [hlog]
    obtain ⟨-, ⟨rfl, -⟩ | ⟨rfl, -⟩, -⟩ := thread_function_spec hf
    · exact le_rfl
    · simp [Log.write]
  have hlate := mainLate_log hmain hgrows
  refine ⟨hmain, ?_⟩
  rw [late, late, hchild]
  rw [hc, Child.left] at htally
  rw [hlog] at hlate
  omega

/-- **Once the value of `halt_sem` is `N`** every step of anybody brings the end nearer. -/
theorem step_left (hr : (program check checks).Reachable s) (hmain : s.main.Notified)
    (h : step s t = some s') : s'.main.Notified ∧ late s' < late s := by
  have hhalt : s.halt.value = N := (tokens hr).halt.trans hmain.haltPosts
  cases t with
  | main =>
    obtain ⟨hmain', hchild, hlt⟩ := mainProcess_late (inv hr) hmain h
    refine ⟨hmain', ?_⟩
    rw [late, late, hchild]
    omega
  | child i =>
    obtain ⟨ready, start, c, hc, rfl⟩ := child_eq_some.mp h
    have htally := tally_update (Child.left N) s.child i c
    have hlt := childProcess_left hc ((inv hr).ok i) hhalt
    refine ⟨hmain, ?_⟩
    show mainLate s + tally (Child.left N) (update s.child i c) < late s
    rw [late]
    omega
  | thread i j =>
    obtain ⟨hmain', hlt⟩ := thread_late h
    exact ⟨hmain' ▸ hmain, hlt⟩

/-- The thread that exists can move, or the one that has the lock can. -/
theorem exists_thread_step (hlock : (s.child i).fileSem + (s.child i).inside = 1)
    (hborn : (s.child i).thread j ≠ .absent) (hdone : (s.child i).thread j ≠ .done) :
    ∃ k, step s (.thread i k) ≠ none := by
  by_contra hnone
  have hstuck : ∀ k, thread_function i (s.child i).fileSem s.log ((s.child i).thread k) = none := by
    intro k
    by_contra hk
    refine hnone ⟨k, fun h => hk ?_⟩
    exact Option.map_eq_none_iff.mp h
  obtain hpc | hpc | ⟨-, hsem⟩ := thread_function_eq_none (hstuck j)
  · exact hborn hpc
  · exact hdone hpc
  · rw [hsem, Nat.zero_add] at hlock
    obtain ⟨k, hk, -⟩ := exists_sole_of_tally_eq_one hlock
    obtain hpc | hpc | ⟨hpc, -⟩ := thread_function_eq_none (hstuck k) <;> rw [hpc] at hk <;>
      cases hk

/-- A child that has not returned can move, or one of its threads can. -/
theorem exists_child_step (hr : (program check checks).Reachable s) (hmain : s.main.Notified)
    (hpc : ∀ status, (s.child i).pc ≠ .exited status) :
    step s (.child i) ≠ none ∨ ∃ j, step s (.thread i j) ≠ none := by
  have hs := tokens hr
  have hok := (inv hr).ok i
  have hborn : (s.child i).pc ≠ .notForked := by
    intro hnot
    have hle := (hs.forked i).mp hnot
    rw [hmain.forks] at hle
    exact absurd i.isLt (Nat.not_lt.mpr hle)
  cases hchild : (s.child i).pc
  case notForked => exact absurd hchild hborn
  case exited status => exact absurd hchild (hpc status)
  case waitStart =>
    -- not all children have taken the tokens of the start
    have hpos : 0 < s.start.value := by
      by_contra hzero
      have hbegins := hs.start
      rw [hmain.startPosts] at hbegins
      have hone : (s.child i).begins = 1 := by
        refine eq_one_of_card_le_tally (fun c => ?_) ?_ i
        · rw [Child.begins]
          split_ifs <;> simp
        · rw [Fintype.card_fin]
          omega
      have hplaced := hs.placed i
      rw [Child.Placed, hchild] at hplaced
      rw [Child.begins, hplaced.2.1] at hone
      cases hone
    left
    simp [step, child, childProcess, hchild, hpos]
  case join k =>
    by_cases hk : k < M
    · by_cases hdone : (s.child i).thread ⟨k, hk⟩ = .done
      · left
        simp [step, child, childProcess, hchild, hk, hdone]
      · right
        refine exists_thread_step (hs.lock i hborn) ?_ hdone
        rw [hok.filled, hchild]
        exact ⟨le_rfl, hk⟩
    · left
      simp [step, child, childProcess, hchild, hk]
  all_goals
    left
    simp only [step, child, childProcess, hchild]
    (try split) <;> simp

/-- **The end**: in every schedule that lets everybody go on, the main process and all children
get to their ends. -/
theorem ends {e : (program (M := M) check checks).Execution} (hfair : e.Fair fun _ _ => False) :
    e.LeadsTo (fun _ => True) fun s =>
      s.main = .done ∧ ∀ i, ∃ status, (s.child i).pc = .exited status := by
  refine (notifies hfair).trans ?_
  refine hfair.leadsTo_of_decreasing (μ := late) (fun s t s' hr hs h => step_left hr hs h) ?_
  intro s hr hs hnot
  by_cases hmain : s.main = .done
  · have hleft : ∃ i, ∀ status, (s.child i).pc ≠ .exited status := by
      by_contra hall
      simp only [not_exists, not_forall, not_not] at hall
      exact hnot ⟨hmain, hall⟩
    obtain ⟨i, hi⟩ := hleft
    obtain h | ⟨j, h⟩ := exists_child_step hr hs hi
    · exact ⟨.child i, h, id⟩
    · exact ⟨.thread i j, h, id⟩
  · exact ⟨.main, mainProcess_ne_none (tokens hr) hmain, id⟩

/-! ### What `parseOutput` has read -/

/-- What has been read is the beginning of the log; what has been appended since `parseOutput`
found the end of the file comes out of the budgets. -/
def Reads (s : State N M) : Prop :=
  match s.main with
  | .parse k => s.reads.length = k ∧
      ∃ later : List (Fin N), s.log.records.map Log.childId = s.reads ++ later.map Log.childId
  | .done => ∃ missed : List (Fin N),
      s.log.records.map Log.childId = s.reads ++ missed.map Log.childId ∧
      ∀ i, missed.count i + (s.child i).budget N ≤ 2 * M
  | _ => s.reads = []

/-- A step that appends to the log, and is not one of `parseOutput`. -/
theorem Reads.append (hs : Reads s) {appended : List (Fin N)} (hmain : s'.main = s.main)
    (hreads : s'.reads = s.reads) (hwithin : s.main = .done → Within s s' appended)
    (hlog : s'.log.records = s.log.records ++ appended) : Reads s' := by
  rw [Reads] at hs ⊢
  rw [hmain, hreads]
  cases hpc : s.main <;> simp only [hpc] at hs ⊢
  case parse k =>
    obtain ⟨hlen, later, hlater⟩ := hs
    refine ⟨hlen, later ++ appended, ?_⟩
    rw [hlog, List.map_append, hlater, List.map_append, List.append_assoc]
  case done =>
    obtain ⟨missed, hmissed, hbudget⟩ := hs
    refine ⟨missed ++ appended, ?_, fun i => ?_⟩
    · rw [hlog, List.map_append, hmissed, List.map_append, List.append_assoc]
    · have hle := hbudget i
      have hle' := (hwithin hpc).2 i
      rw [List.count_append]
      omega
  all_goals exact hs

/-- `parseOutput` reads the next record, or finds the end of the file. -/
theorem Reads.mainProcess (hs : Reads s) (hinv : Inv checks s) (h : mainProcess s = some s') :
    Reads s' := by
  rw [Reads] at hs
  cases main_step h with
  | parse k index hpc hindex =>
    rw [hpc] at hs
    obtain ⟨hlen, later, hlater⟩ := hs
    rw [hinv.whole.readInts, hlater, List.getElem?_append_right hlen.le, hlen, Nat.sub_self]
      at hindex
    obtain ⟨rest, hrest⟩ := List.head?_eq_some_iff.mp (List.head?_eq_getElem?.trans hindex)
    obtain ⟨id, later', rfl, rfl, -⟩ := List.map_eq_cons_iff.mp hrest
    refine ⟨by rw [List.length_append, hlen]; rfl, later', ?_⟩
    show s.log.records.map Log.childId = (s.reads ++ [Log.childId id]) ++ later'.map Log.childId
    rw [hlater, List.append_assoc]
    rfl
  | parsed k hpc hindex =>
    rw [hpc] at hs
    obtain ⟨hlen, later, hlater⟩ := hs
    rw [hinv.whole.readInts, hlater, List.getElem?_append_right hlen.le, hlen, Nat.sub_self]
      at hindex
    obtain rfl : later = [] :=
      List.map_eq_nil_iff.mp (List.head?_eq_none_iff.mp (List.head?_eq_getElem?.trans hindex))
    exact ⟨[], hlater, fun i => by rw [List.count_nil, Nat.zero_add]; exact (hinv.ok i).budget_le⟩
  | unlinkHalt hpc =>
    rw [hpc] at hs
    exact ⟨by rw [hs]; rfl, s.log.records, by rw [hs]; rfl⟩
  | fork i hi hpc | forked i hpc hi | openReady hpc _ | noReady hpc _ | poll hpc _ | polled hpc _
  | getReady hpc | openStart hpc _ | noStart hpc _ | postStart i hpc _ | started i hpc _
  | sleep hpc | openHalt hpc _ | noHalt hpc _ | postHalt i hpc _ | halted i hpc _
  | unlinkReady hpc | unlinkStart hpc =>
    rw [hpc] at hs
    exact hs

theorem reads_inv (h : (program check checks).Reachable s) : Reads s := by
  refine h.invariant (I := Reads) ?_ fun s t s' hr hs hstep => ?_
  · rintro s rfl
    exact rfl
  · cases t with
    | main => exact hs.mainProcess (inv hr) hstep
    | child i =>
      have hhalt : s.main = .done → s.halt.value = N := fun hmain => by
        rw [(tokens hr).halt, hmain]
        rfl
      obtain ⟨ready, start, c, hc, rfl⟩ := child_eq_some.mp hstep
      exact hs.append rfl rfl (fun hmain => .of_child rfl rfl
        (childProcess_budget hc ((inv hr).ok i) (hhalt hmain))) (List.append_nil _).symm
    | thread i j =>
      obtain ⟨appended, hwithin⟩ := thread_within hstep
      obtain ⟨sem, log, pc, -, rfl⟩ := thread_eq_some.mp hstep
      exact hs.append rfl rfl (fun _ => hwithin) hwithin.1

/-! ### The end -/

/-- A child that has returned has joined its threads. -/
theorem Child.Ok.filled_of_exited {c : Child M} (hc : c.Ok) {status : ℕ}
    (hpc : c.pc = .exited status) : Filled 0 0 c.thread := by
  have hfilled := hc.filled
  rwa [hpc] at hfilled

/-- When everybody has returned, nobody is left to move. -/
theorem stuck_of_exited (h : (program check checks).Reachable s) (hmain : s.main = .done)
    (hchild : ∀ i, ∃ status, (s.child i).pc = .exited status) : (program check checks).Stuck s := by
  intro t
  cases t with
  | main => simp [program, step, mainProcess, hmain]
  | child i =>
    obtain ⟨status, hpc⟩ := hchild i
    simp [program, step, child, childProcess, hpc]
  | thread i j =>
    obtain ⟨status, hpc⟩ := hchild i
    have habsent : (s.child i).thread j = .absent :=
      (((inv h).ok i).filled_of_exited hpc).eq_absent (by omega)
    simp [program, step, thread, thread_function, habsent]

/-- A child that has returned has written its `M` records in each of its rounds; one that has not
found a name has had none. -/
theorem account_of_exited (h : (program check checks).Reachable s) {status : ℕ}
    (hpc : (s.child i).pc = .exited status) :
    (status = 0 ∨ status = 1 ∧ (s.child i).rounds = 0) ∧
      s.log.records.count i = M * (s.child i).rounds := by
  have hplaced := (tokens h).placed i
  have haccount := account_inv h i
  rw [Child.Placed, hpc] at hplaced
  have hpending : (s.child i).pending = 0 :=
    (((inv h).ok i).filled_of_exited hpc).tally_zero rfl
  rw [hpending, Child.owed, hpc] at haccount
  exact ⟨hplaced.imp And.left id, haccount⟩

/-- What `parseOutput` counts for a child, and what it misses, are the records of its rounds. -/
theorem parseOutput_of_reads {missed : List (Fin N)} (hpos : 0 < N) (hN : N < 2 ^ 31)
    (hlen : s.log.records.length < 2 ^ 31)
    (hreads : s.log.records.map Log.childId = s.reads ++ missed.map Log.childId) (index : CInt)
    (memory : ℤ → CInt) :
    ∃ access_stats scan, ParseOutput.parseOutput (BitVec.ofNat 32 N) index memory
        (ParseOutput.reads (s.reads.flatMap intBytes)) = (access_stats, scan) ∧
      ∀ i : Fin N, (access_stats i.val).toInt + missed.count i = s.log.records.count i := by
  have hint : (BitVec.ofNat 32 N : CInt).toInt = N := toInt_ofNat_of_lt hN
  have hids : ∀ index ∈ s.reads, 0 ≤ index.toInt ∧
      index.toInt < (BitVec.ofNat 32 N : CInt).toInt := by
    intro index hindex
    have hmem : index ∈ s.log.records.map Log.childId := by
      rw [hreads]
      exact List.mem_append_left _ hindex
    obtain ⟨i, -, rfl⟩ := List.mem_map.mp hmem
    rw [Log.childId_toInt hN.le, hint]
    exact ⟨Int.natCast_nonneg _, by exact_mod_cast i.isLt⟩
  have hshort : s.reads.length < 2 ^ 31 := by
    have hsum := congrArg List.length hreads
    rw [List.length_map, List.length_append] at hsum
    omega
  obtain ⟨-, access_stats, scan, hparse, hstats, -⟩ :=
    ParseOutput.statistics (BitVec.ofNat 32 N) index memory s.reads
      (by rw [hint]; exact_mod_cast hpos) hids hshort
  rw [hint, Int.toNat_natCast] at hstats
  refine ⟨access_stats, scan, hparse, fun i => ?_⟩
  have hcount := congrArg (List.count (BitVec.ofNat 32 i.val)) hreads
  rw [List.count_append, Log.count_childId hN.le, Log.count_childId hN.le] at hcount
  rw [hstats i i.isLt]
  omega

/-- **The whole run** of the program: in every schedule that lets everybody go on, and whatever
the variables `check` contain at first, the main process and all children come to their ends and
nobody is left behind; each child has written `M` records in each of its rounds, and has had none
if it has not found the name of a semaphore.  `parseOutput` has read the beginning of the log: for
each child it reports what is there but for the `2 * M` last records at most. -/
theorem ends_after_all (N M : ℕ) (check : ℤ) (checks : Fin N → ℤ)
    (e : (program (M := M) check checks).Execution) (hfair : e.Fair fun _ _ => False) :
    ∃ n, (e.state n).main = .done ∧ (∀ k, e.state (n + k) = e.state n) ∧
      (∀ i, ∃ status, ((e.state n).child i).pc = .exited status ∧
        (status = 0 ∨ status = 1 ∧ ((e.state n).child i).rounds = 0) ∧
        (e.state n).log.records.count i = M * ((e.state n).child i).rounds) ∧
      ∃ missed : List (Fin N),
        (e.state n).log.records.map Log.childId
          = (e.state n).reads ++ missed.map Log.childId ∧
        (∀ i, missed.count i ≤ 2 * M) ∧
        (0 < N → N < 2 ^ 31 → (e.state n).log.records.length < 2 ^ 31 →
          ∀ (index : CInt) (memory : ℤ → CInt),
            ∃ access_stats scan, ParseOutput.parseOutput (BitVec.ofNat 32 N) index memory
                (ParseOutput.reads ((e.state n).reads.flatMap intBytes)) = (access_stats, scan) ∧
              ∀ i : Fin N, (access_stats i.val).toInt + missed.count i
                = M * ((e.state n).child i).rounds) := by
  obtain ⟨n, -, hmain, hchild⟩ := ends hfair 0 trivial
  have hr := e.reachable n
  have hstuck := stuck_of_exited hr hmain hchild
  have hreads := reads_inv hr
  rw [Reads, hmain] at hreads
  obtain ⟨missed, hmissed, hbudget⟩ := hreads
  refine ⟨n, hmain, Execution.state_of_fixed fun t s h => ?_, fun i => ?_, missed, hmissed,
    fun i => (Nat.le_add_right _ _).trans (hbudget i), fun hpos hN hlen index memory => ?_⟩
  · rw [hstuck t] at h
    cases h
  · obtain ⟨status, hpc⟩ := hchild i
    exact ⟨status, hpc, account_of_exited hr hpc⟩
  · obtain ⟨access_stats, scan, hparse, hcount⟩ :=
      parseOutput_of_reads hpos hN hlen hmissed index memory
    refine ⟨access_stats, scan, hparse, fun i => ?_⟩
    obtain ⟨status, hpc⟩ := hchild i
    rw [hcount i, (account_of_exited hr hpc).2]
    exact Nat.cast_mul _ _

/-- The processes and threads. -/
def agents (N M : ℕ) : List (Agent N M) :=
  .main :: ((List.finRange N).map .child ++
    (List.finRange N).flatMap fun i => (List.finRange M).map (.thread i))

theorem agents_pos (N M : ℕ) : 0 < (agents N M).length := Nat.succ_pos _

theorem mem_agents (t : Agent N M) : t ∈ agents N M := by
  rcases t with _ | i | ⟨i, j⟩ <;> simp [agents]

/-- With everybody in turn and 2 in the variable `check` of the main process, two children come to
their end. -/
theorem ends_after_all_two : ∃ n,
    ((program (N := 2) (M := 1) 2 fun _ => 0).states (initial 2 fun _ => 0)
      (cycle (agents 2 1) (agents_pos 2 1)) n).main = .done ∧
      ∀ i, ∃ status, (((program (N := 2) (M := 1) 2 fun _ => 0).states (initial 2 fun _ => 0)
        (cycle (agents 2 1) (agents_pos 2 1)) n).child i).pc = .exited status := by
  obtain ⟨n, hmain, -, hchild, -⟩ := ends_after_all 2 1 2 (fun _ => 0)
    (execution rfl (cycle (agents 2 1) (agents_pos 2 1))) (fair_cycle mem_agents)
  exact ⟨n, hmain, fun i => (hchild i).imp fun status h => h.1⟩

end Polling
