/-
Dekker's algorithm of `dekker.c` lets everybody in.

A process may stay outside for ever, but one that has asked to enter goes on running, and so does
one that is inside or on its way out: that is all that is asked of the schedule.

* `turn_leadsTo` — who wants to enter and has the turn gets in: the other gives way, and cannot
  come in again once it has;
* `inside_leadsTo`, `out_leadsTo` — while the turn is the other's, the other goes in and gives the
  turn away, or stays out;
* `entry_leadsTo` — whoever wants to enter gets in.
-/
import SistemiDiCalcolo.Dekker
import SistemiDiCalcolo.Fairness

open Function (update)

namespace Dekker

open Machine

variable {s s' : State} {p t : Proc}

/-- The program points of the loop in which a process tests the other's flag. -/
def Pc.Testing : Pc → Bool
  | .testFlag | .testTurn => true
  | _ => false

/-- How far a process whose turn it is is from its test. -/
def Pc.wait : Pc → ℕ
  | .lowerFlag => 3
  | .spin => 2
  | .raiseFlag | .setFlag => 1
  | _ => 0

/-- How far a process is from the busy wait, if it is not let in. -/
def Pc.rank : Pc → ℕ
  | .critical => 9
  | .setTurn => 8
  | .clearFlag => 7
  | .idle => 6
  | .setFlag => 5
  | .raiseFlag => 4
  | .testFlag => 3
  | .testTurn => 2
  | .lowerFlag => 1
  | .spin => 0

/-- A process stays in its entry code until it is let in. -/
theorem dekker_entry (hc : (s.pc p).Entry) (h : dekker s t = some s') :
    (s'.pc p).Entry ∨ s'.pc p = .critical := by
  obtain rfl | rfl := Proc.eq_or_other p t
  · cases dekker_step h with
    | enter hpc _ => exact .inr (by simp)
    | spin hpc _ => exact .inl hc
    | setFlag hpc | heldUp hpc _ | giveWay hpc _ | insist hpc _ | lowerFlag hpc | goOn hpc _
    | raiseFlag hpc =>
      exact .inl (by simp [Pc.Entry])
    | ask hpc | leave hpc | setTurn hpc | clearFlag hpc =>
      rw [hpc] at hc
      exact absurd hc (by decide)
  · have hother := (dekker_other h).2
    rw [Proc.other_other] at hother
    rw [hother]
    exact .inl hc

/-- The turn stays with a process in its entry code. -/
theorem dekker_turn_entry (hc : (s.pc p).Entry) (hturn : s.turn = p) (h : dekker s t = some s') :
    s'.turn = p := by
  rcases dekker_turn h with ⟨hset, hother, -⟩ | ⟨hsame, -⟩
  · obtain rfl | rfl := Proc.eq_or_other p t
    · rw [hset] at hc
      exact absurd hc (by decide)
    · rw [hother, Proc.other_other]
  · rw [hsame, hturn]

/-- The steps of a process that has the turn, on its way to the test. -/
theorem dekker_wait (hc : (s.pc p).Entry) (hturn : s.turn = p) (htest : ¬ (s.pc p).Testing)
    (h : dekker s p = some s') : (s'.pc p).Testing ∨ (s'.pc p).wait < (s.pc p).wait := by
  cases dekker_step h with
  | setFlag hpc | raiseFlag hpc => exact .inl (by simp [Pc.Testing])
  | lowerFlag hpc | goOn hpc _ => exact .inr (by simp [Pc.wait, hpc])
  | spin hpc hother => exact absurd (hturn.symm.trans hother) (Proc.ne_other p)
  | heldUp hpc _ | enter hpc _ | giveWay hpc _ | insist hpc _ =>
    rw [hpc] at htest
    exact absurd rfl htest
  | ask hpc | leave hpc | setTurn hpc | clearFlag hpc =>
    rw [hpc] at hc
    exact absurd hc (by decide)

/-- The steps of a process that has the turn, in the loop of its test. -/
theorem dekker_testing (hturn : s.turn = p) (htest : (s.pc p).Testing)
    (h : dekker s p = some s') : s'.pc p = .critical ∨ (s'.pc p).Testing ∧
      (s.flag p.other = false → s.pc p = .testTurn ∧ s'.pc p ≠ .testTurn) := by
  cases dekker_step h with
  | enter hpc _ => exact .inl (by simp)
  | heldUp hpc hup =>
    refine .inr ⟨by simp [Pc.Testing], fun hdown => ?_⟩
    rw [hup] at hdown
    cases hdown
  | insist hpc _ => exact .inr ⟨by simp [Pc.Testing], fun _ => ⟨hpc, by simp⟩⟩
  | giveWay hpc hother => exact absurd (hturn.symm.trans hother) (Proc.ne_other p)
  | ask hpc | setFlag hpc | lowerFlag hpc | spin hpc _ | goOn hpc _ | raiseFlag hpc | leave hpc
  | setTurn hpc | clearFlag hpc =>
    rw [hpc] at htest
    cases htest

/-- A process that finds the other's flag up, and has not the turn, gets to the busy wait and
stays there. -/
theorem dekker_rank (hturn : s.turn = t.other) (hup : s.flag t.other = true)
    (h : dekker s t = some s') :
    (s'.pc t).rank < (s.pc t).rank ∨ s.pc t = .spin ∧ s' = s := by
  cases dekker_step h with
  | spin hpc _ => exact .inr ⟨hpc, rfl⟩
  | enter hpc hdown =>
    rw [hup] at hdown
    cases hdown
  | insist hpc hown | goOn hpc hown => exact absurd (hown.symm.trans hturn) (Proc.ne_other t)
  | ask hpc | setFlag hpc | heldUp hpc _ | giveWay hpc _ | lowerFlag hpc | raiseFlag hpc | leave hpc
  | setTurn hpc | clearFlag hpc =>
    exact .inl (by simp [Pc.rank, hpc])

/-- The tests are made with the flag up. -/
theorem Pc.raised_of_testing {c : Pc} (h : c.Testing) : c.Raised = true := by
  cases c <;> first | rfl | cases h

/-- Where a process is in its entry code that nothing has held up. -/
theorem Pc.Entry.of_not_held {c : Pc} (hc : c.Entry) (h : ¬ c.Held) :
    c = .setFlag ∨ c = .testFlag := by
  rcases hc with hc | hc | hc | hc | hc | hc
  · exact .inl hc
  · exact .inr hc
  all_goals
    rw [hc] at h
    exact absurd rfl h

/-! ### With the turn -/

/-- How far a process that has the turn is from being let in.  Until it tests, only its own steps
matter; from then on the other's, as long as its flag is up. -/
def distance (p : Proc) (s : State) : ℕ :=
  if (s.pc p).Testing then
    2 * (s.pc p.other).rank +
      if (s.pc p.other).Raised = false ∧ s.pc p = .testTurn then 1 else 0
  else 20 + (s.pc p).wait

/-- The process whose step brings the one that has the turn further. -/
def helpful (p : Proc) (s : State) : Proc :=
  if (s.pc p).Testing ∧ (s.pc p.other).Raised then p.other else p

theorem Pc.rank_le (c : Pc) : c.rank ≤ 9 := by
  cases c <;> simp [Pc.rank]

theorem distance_lt_of_testing (h : (s.pc p).Testing) : distance p s < 20 := by
  have hrank := Pc.rank_le (s.pc p.other)
  rw [distance, if_pos h]
  split <;> omega

theorem distance_of_not_testing (h : ¬ (s.pc p).Testing) : distance p s = 20 + (s.pc p).wait := by
  rw [distance, if_neg h]

/-- The own steps of a process that has the turn. -/
theorem distance_own (hs : Inv s) (hc : (s.pc p).Entry) (hturn : s.turn = p)
    (h : dekker s p = some s') : s'.pc p = .critical ∨ distance p s' < distance p s ∨
      distance p s' = distance p s ∧ p ≠ helpful p s ∧ helpful p s = helpful p s' := by
  have hother := (dekker_other h).2
  by_cases htest : (s.pc p).Testing
  · rcases dekker_testing hturn htest h with hcrit | ⟨htest', hdown⟩
    · exact .inl hcrit
    · refine .inr ?_
      rw [hs.flag] at hdown
      cases hup : (s.pc p.other).Raised with
      | true =>
        refine .inr ⟨?_, ?_, ?_⟩
        · simp [distance, htest, htest', hother, hup]
        · simp [helpful, htest, hup]
        · simp [helpful, htest, htest', hother, hup]
      | false =>
        obtain ⟨hpc, hpc'⟩ := hdown hup
        refine .inl ?_
        simp only [distance, hother, if_pos htest', hup, hpc, hpc', and_false,
          and_self, if_true, if_false]
        exact Nat.lt_succ_self _
  · refine .inr (.inl ?_)
    rw [distance_of_not_testing htest]
    by_cases htest' : (s'.pc p).Testing
    · exact (distance_lt_of_testing htest').trans_le (Nat.le_add_right 20 _)
    · rw [distance_of_not_testing htest']
      exact Nat.add_lt_add_left ((dekker_wait hc hturn htest h).resolve_left htest') 20

/-- The steps of the other while the turn is not its own. -/
theorem distance_other (hs : Inv s) (hturn : s.turn = p) (h : dekker s p.other = some s') :
    distance p s' < distance p s ∨
      distance p s' = distance p s ∧ p.other ≠ helpful p s ∧ helpful p s = helpful p s' := by
  have hown := (dekker_other h).2
  rw [Proc.other_other] at hown
  by_cases htest : (s.pc p).Testing
  · have hup : s.flag p = true := by
      rw [hs.flag]
      exact Pc.raised_of_testing htest
    rcases dekker_rank (t := p.other) (by rw [hturn, Proc.other_other])
      (by rw [Proc.other_other, hup]) h with hlt | ⟨hspin, rfl⟩
    · left
      rw [distance, distance, hown, if_pos htest, if_pos htest]
      split <;> split <;> omega
    · right
      refine ⟨rfl, ?_, rfl⟩
      simp [helpful, hspin, Pc.Raised]
  · right
    refine ⟨?_, ?_, ?_⟩
    · rw [distance_of_not_testing htest, distance_of_not_testing (by rw [hown]; exact htest), hown]
    · simp [helpful, htest]
    · simp [helpful, hown, htest]

/-- What is asked of a schedule: only who has not asked to enter may stop. -/
def rests (s : State) (t : Proc) : Prop := s.pc t = .idle

theorem dekker_ne_none (s : State) (t : Proc) : dekker s t ≠ none := by
  unfold dekker
  cases s.pc t <;> simp only <;> (try split) <;> simp

/-- **Who has the turn gets in.** -/
theorem turn_leadsTo {e : processes.Execution} (hfair : e.Fair rests) (p : Proc) :
    e.LeadsTo (fun s => (s.pc p).Entry ∧ s.turn = p) fun s => s.pc p = .critical := by
  refine hfair.leadsTo (μ := distance p) (H := fun s t => t = helpful p s) ?_
    (fun s _ _ _ => ⟨_, rfl⟩) ?_
  · rintro s - t s' hr ⟨hc, hturn⟩ - rfl h
    have hs := inv hr
    rcases dekker_entry hc h with hc' | hcrit
    · have hturn' := dekker_turn_entry hc hturn h
      obtain rfl | rfl := Proc.eq_or_other p t
      · rcases distance_own hs hc hturn h with hcrit | hdist
        · exact .inl hcrit
        · exact .inr ⟨⟨hc', hturn'⟩, hdist⟩
      · exact .inr ⟨⟨hc', hturn'⟩, distance_other hs hturn h⟩
    · exact .inl hcrit
  · rintro s - - ⟨hc, -⟩ - rfl
    refine ⟨dekker_ne_none s _, fun hidle => ?_⟩
    rw [rests, helpful] at hidle
    split at hidle
    · rename_i hboth
      rw [hidle] at hboth
      exact absurd hboth.2 (by decide)
    · rw [hidle] at hc
      exact absurd hc (by decide)

/-! ### Without the turn -/

/-- While the turn is the other's and the other is inside, it goes on to give the turn away. -/
theorem inside_leadsTo {e : processes.Execution} (hfair : e.Fair rests) (p : Proc) :
    e.LeadsTo (fun s => (s.pc p).Entry ∧ (s.pc p.other = .critical ∨ s.pc p.other = .setTurn))
      fun s => s.pc p = .critical ∨ (s.pc p).Entry ∧ s.turn = p := by
  refine hfair.leadsTo (μ := fun s => (s.pc p.other).rank) (H := fun _ t => t = p.other) ?_
    (fun _ _ _ _ => ⟨_, rfl⟩) ?_
  · rintro s - t s' hr ⟨hc, hin⟩ - rfl h
    rcases dekker_entry hc h with hc' | hcrit
    · obtain rfl | rfl := Proc.eq_or_other p t
      · refine .inr ⟨⟨hc', ?_⟩, .inr ⟨?_, Proc.ne_other t, rfl⟩⟩
        · rw [(dekker_other h).2]
          exact hin
        · simp only [(dekker_other h).2]
      · rcases hin with hin | hin <;> simp only [processes, dekker, hin] at h <;> cases h
        · exact .inr ⟨⟨hc', .inr (by simp)⟩, .inl (by simp [hin, Pc.rank])⟩
        · exact .inl (.inr ⟨hc', by simp⟩)
    · exact .inl (.inl hcrit)
  · rintro s - - ⟨-, hin⟩ - rfl
    refine ⟨dekker_ne_none s _, fun hidle => ?_⟩
    rw [rests] at hidle
    rw [hidle] at hin
    exact absurd hin (by decide)

/-- While the other stays out, a process that need not wait for the turn gets to the test. -/
theorem out_leadsTo {e : processes.Execution} (hfair : e.Fair rests) (p : Proc) :
    e.LeadsTo (fun s => (s.pc p = .setFlag ∨ s.pc p = .testFlag) ∧ (s.pc p.other).Out)
      fun s => s.pc p = .critical ∨ (s.pc p).Entry ∧ ¬ (s.pc p.other).Out := by
  refine hfair.leadsTo (μ := fun s => if s.pc p = .setFlag then 1 else 0)
    (H := fun _ t => t = p) ?_ (fun _ _ _ _ => ⟨_, rfl⟩) ?_
  · rintro s q t s' hr ⟨hc, hout⟩ - hq h
    obtain rfl | rfl := Proc.eq_or_other p t
    · have hother := (dekker_other h).2
      have hdown : s.flag t.other = false := by
        rw [(inv hr).flag, Pc.not_raised_of_out hout]
      -- the flag of the other is down, and the test is passed
      rcases hc with hc | hc <;> simp only [processes, dekker, hc, hdown] at h <;> cases h
      · refine .inr ⟨⟨.inr (by simp), ?_⟩, .inl (by simp [hc])⟩
        rw [hother]
        exact hout
      · exact .inl (.inl (by simp))
    · have hown := (dekker_other h).2
      rw [Proc.other_other] at hown
      -- the other may begin to ask
      by_cases hout' : (s'.pc p.other).Out
      · refine .inr ⟨⟨by rw [hown]; exact hc, hout'⟩, .inr ⟨?_, ?_, hq⟩⟩
        · simp only [hown]
        · rw [hq]
          exact Proc.other_ne p
      · refine .inl (.inr ⟨?_, hout'⟩)
        rw [hown]
        rcases hc with hc | hc <;> rw [hc] <;> decide
  · rintro s q - ⟨hc, -⟩ - hq
    refine ⟨dekker_ne_none s _, fun hidle => ?_⟩
    rw [rests, hq] at hidle
    rw [hidle] at hc
    exact absurd hc (by decide)

/-- While the other is in its entry code and has the turn, it gets in, unless the one that waits
does before. -/
theorem both_leadsTo {e : processes.Execution} (hfair : e.Fair rests) (p : Proc) :
    e.LeadsTo (fun s => ((s.pc p.other).Entry ∧ s.turn = p.other) ∧ (s.pc p).Entry)
      fun s => s.pc p.other = .critical ∧ (s.pc p).Entry ∨ s.pc p = .critical :=
  (turn_leadsTo hfair p.other).unless fun _ _ _ _ hc _ h => dekker_entry hc h

/-- Once the other has asked to enter, whoever waits for it gets in. -/
theorem asked_leadsTo {e : processes.Execution} (hfair : e.Fair rests) (p : Proc) :
    e.LeadsTo (fun s => (s.pc p).Entry ∧ ¬ (s.pc p.other).Out) fun s => s.pc p = .critical := by
  have hgive : e.LeadsTo (fun s => s.pc p = .critical ∨ (s.pc p).Entry ∧ s.turn = p)
      fun s => s.pc p = .critical :=
    (Execution.LeadsTo.of_imp fun _ _ h => h).or (turn_leadsTo hfair p)
  have hin := (inside_leadsTo hfair p).trans hgive
  have hboth : e.LeadsTo (fun s => ((s.pc p.other).Entry ∧ s.turn = p.other) ∧ (s.pc p).Entry)
      fun s => s.pc p = .critical :=
    (both_leadsTo hfair p).trans <|
      ((Execution.LeadsTo.of_imp fun _ _ ⟨hcrit, hc⟩ => ⟨hc, .inl hcrit⟩).trans hin).or
        (Execution.LeadsTo.of_imp fun _ _ h => h)
  rintro n ⟨hc, hout⟩
  obtain hturn | hturn := Proc.eq_or_other p (e.state n).turn
  · exact turn_leadsTo hfair p n ⟨hc, hturn⟩
  · rcases Pc.cases ((e.state n).pc p.other) with hout' | hentry | hexit | hcrit
    · exact absurd hout' hout
    · exact hboth n ⟨⟨hentry, hturn⟩, hc⟩
    · rcases hexit with hset | hclear
      · exact hin n ⟨hc, .inr hset⟩
      · have hleft := (inv (e.reachable n)).left _ hclear
        rw [Proc.other_other] at hleft
        exact turn_leadsTo hfair p n ⟨hc, hleft⟩
    · exact hin n ⟨hc, .inl hcrit⟩

/-- **Whoever wants to enter gets in**, in every schedule in which the processes that are not
outside go on running. -/
theorem entry_leadsTo {e : processes.Execution} (hfair : e.Fair rests) (p : Proc) :
    e.LeadsTo (fun s => (s.pc p).Entry) fun s => s.pc p = .critical := by
  have hgoes : e.LeadsTo (fun s => s.pc p = .critical ∨ (s.pc p).Entry ∧ ¬ (s.pc p.other).Out)
      fun s => s.pc p = .critical :=
    (Execution.LeadsTo.of_imp fun _ _ h => h).or (asked_leadsTo hfair p)
  intro n hc
  by_cases hout : ((e.state n).pc p.other).Out
  · obtain hturn | hturn := Proc.eq_or_other p (e.state n).turn
    · exact turn_leadsTo hfair p n ⟨hc, hturn⟩
    · -- the other is out and has the turn: nothing has held this one up
      have hheld : ¬ ((e.state n).pc p).Held := fun hheld => by
        have hown := (inv (e.reachable n)).held p hheld hout
        exact Proc.ne_other p (hown.symm.trans hturn)
      exact (out_leadsTo hfair p).trans hgoes n ⟨hc.of_not_held hheld, hout⟩
  · exact asked_leadsTo hfair p n ⟨hc, hout⟩

/-- The two processes, one after the other. -/
def agents : List Proc := [.p0, .p1]

theorem agents_pos : 0 < agents.length := Nat.two_pos

/-- In turn, both ask to enter, and both get in. -/
theorem entry_leadsTo_cycle : ∃ m, 2 ≤ m ∧
    (processes.states { flag := fun _ => false, turn := .p0, pc := fun _ => .idle }
      (cycle agents agents_pos) m).pc .p1 = .critical :=
  entry_leadsTo (e := execution rfl (cycle agents agents_pos))
    (fair_cycle fun t => by cases t <;> simp [agents]) .p1 2 (.inl rfl)

end Dekker
