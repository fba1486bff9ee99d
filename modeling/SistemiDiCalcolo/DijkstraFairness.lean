/-
What the algorithm of `dijkstra.c` promises to those who wait.

Whatever the loop over the flags skips, the algorithm does not come to a standstill: once `k` is the
number of a process that wants to enter and nobody is about to write it, the others give up their
flags, and this process finds none raised.  But `k` is given away to whoever comes first, and a
process that comes back quickly enough always is.

* `clears`, `named`, `unwritten`, `settles`, `admits` — the stages, each with what is left to be
  done as weights of the processes;
* `enters` — whenever some process wants to enter, some process enters, then or later;
* `can_starve` — a process may want to enter for ever.
-/
import SistemiDiCalcolo.Dijkstra
import SistemiDiCalcolo.Fairness

open Function (update)

namespace Dijkstra

open Machine

variable {N : ℕ} {k₀ : Fin N} {s s' : State N} {t p m : Fin N}

/-- The program points between the request to enter and the critical section. -/
def Pc.Trying : Pc N → Prop
  | .idle | .critical | .clearInterested => False
  | _ => True

/-- The program points at which the flag in `passed` may be up. -/
def Pc.MayPass : Pc N → Prop
  | .readK | .clearPassed | .setPassed | .scan _ | .critical => True
  | _ => False

/-- What the flags say of the program points. -/
structure Flags (s : State N) : Prop where
  interested : ∀ i, s.interested i = false ↔ s.pc i = .idle
  passed : ∀ i, s.passed i = true → (s.pc i).MayPass

theorem flags_start (k₀ : Fin N) : Flags (start k₀) where
  interested i := iff_of_true rfl rfl
  passed i h := by cases h

/-- A step changes only the mover's own flags. -/
theorem dijkstra_interested (h : dijkstra s t = some s') {i : Fin N} (hi : i ≠ t) :
    s'.interested i = s.interested i := by
  cases dijkstra_step h <;> simp [Function.update_of_ne hi]

theorem Flags.step (hs : Flags s) (h : dijkstra s t = some s') : Flags s' := by
  have hint := hs.interested t
  have hpassed := hs.passed t
  have hown : (s'.interested t = false ↔ s'.pc t = .idle) ∧
      (s'.passed t = true → (s'.pc t).MayPass) := by
    cases dijkstra_step h with
    | request hpc | clearInterested hpc =>
      rw [hpc] at hpassed
      exact ⟨by simp, fun hup => absurd (hpassed hup) id⟩
    | readKAgain hpc | notInterested j hpc _ | interested j hpc _ | writeK hpc =>
      rw [hpc] at hint hpassed
      exact ⟨by simp [hint], fun hup => absurd (hpassed hup) id⟩
    | clearPassed hpc | leave hpc =>
      rw [hpc] at hint
      exact ⟨by simp [hint], by simp⟩
    | another hpc _ | own hpc _ | setPassed hpc | goBack j hj hpc _ _ | advance j hj hpc _ _
    | enter j hpc _ =>
      rw [hpc] at hint
      exact ⟨by simp [hint], by simp [Pc.MayPass]⟩
  refine ⟨fun i => ?_, fun i => ?_⟩
  · rcases eq_or_ne i t with rfl | hi
    · exact hown.1
    · rw [dijkstra_interested h hi, (dijkstra_frame h hi).2]
      exact hs.interested i
  · rcases eq_or_ne i t with rfl | hi
    · exact hown.2
    · rw [(dijkstra_frame h hi).1, (dijkstra_frame h hi).2]
      exact hs.passed i

theorem flags (h : (processes k₀).Reachable s) : Flags s := by
  refine h.invariant ?_ fun _ _ _ _ hs hstep => hs.step hstep
  rintro s rfl
  exact flags_start k₀

/-- A process goes on wanting to enter until it does. -/
theorem trying_step (hp : (s.pc p).Trying) (h : dijkstra s t = some s') :
    (s'.pc p).Trying ∨ s'.pc p = .critical := by
  rcases eq_or_ne p t with rfl | hne
  · cases dijkstra_step h with
    | enter j hpc _ => exact .inr (by simp)
    | another hpc _ | own hpc _ | clearPassed hpc | readKAgain hpc | notInterested j hpc _
    | interested j hpc _ | writeK hpc | setPassed hpc | goBack j hj hpc _ _
    | advance j hj hpc _ _ =>
      exact .inl (by simp [Pc.Trying])
    | request hpc | leave hpc | clearInterested hpc =>
      rw [hpc] at hp
      exact hp.elim
  · rw [(dijkstra_frame h hne).2]
    exact .inl hp

theorem dijkstra_ne_none (s : State N) (t : Fin N) : dijkstra s t ≠ none := by
  unfold dijkstra
  cases s.pc t <;> simp only <;> (repeat split) <;> simp

/-- What is asked of a schedule: only who does not want to enter may stop. -/
def rests (s : State N) (t : Fin N) : Prop := s.pc t = .idle

/-- Somebody is inside. -/
def Inside (s : State N) : Prop := ∃ p, s.pc p = .critical

/-- Somebody wants to enter. -/
def Wanted (s : State N) : Prop := ∃ p, (s.pc p).Trying

/-! ### The way to a settled `k` -/

/-- Nobody is about to take back that it wanted to enter. -/
def Cleared (s : State N) : Prop := ∀ i, s.pc i ≠ .clearInterested

/-- Only who has been inside gets to take it back. -/
theorem clearing_of_step (hin : ¬ Inside s) (h : dijkstra s t = some s') {i : Fin N}
    (hi : s'.pc i = .clearInterested) : s.pc i = .clearInterested ∧ t ≠ i := by
  rcases eq_or_ne i t with rfl | hne
  · cases dijkstra_step h with
    | leave hpc => exact absurd ⟨i, hpc⟩ hin
    | request hpc | another hpc _ | own hpc _ | clearPassed hpc | readKAgain hpc
    | notInterested j hpc _ | interested j hpc _ | writeK hpc | setPassed hpc | goBack j hj hpc _ _
    | advance j hj hpc _ _ | enter j hpc _ | clearInterested hpc =>
      simp at hi
  · rw [(dijkstra_frame h hne).2] at hi
    exact ⟨hi, hne.symm⟩

theorem Cleared.step (hc : Cleared s) (hin : ¬ Inside s) (h : dijkstra s t = some s') :
    Cleared s' := fun i hi => hc i (clearing_of_step hin h hi).1

theorem wanted_step (hw : Wanted s) (h : dijkstra s t = some s') : Inside s' ∨ Wanted s' := by
  obtain ⟨p, hp⟩ := hw
  rcases trying_step hp h with hp' | hcrit
  · exact .inr ⟨p, hp'⟩
  · exact .inl ⟨p, hcrit⟩

/-- Those who have been inside get out. -/
theorem clears {e : (processes k₀).Execution} (hfair : e.Fair rests) :
    e.LeadsTo Wanted fun s => Inside s ∨ Wanted s ∧ Cleared s := by
  have hgone := hfair.leadsTo_of_weights (P := Wanted) (Q := Inside)
    (w := fun s i => if s.pc i = .clearInterested then 1 else 0) id ?_ ?_
  · refine hgone.trans (.of_imp fun s _ hs => hs.imp_right fun ⟨hw, hzero⟩ => ⟨hw, fun i hi => ?_⟩)
    have hi' := hzero i
    rw [if_pos hi] at hi'
    cases hi'
  · intro s t s' _ hw hin h
    refine (wanted_step hw h).imp_right fun hw' => ⟨hw', fun i => ?_⟩
    by_cases hi : s'.pc i = .clearInterested
    · obtain ⟨hbefore, hne⟩ := clearing_of_step hin h hi
      rw [if_pos hi, if_pos hbefore]
      exact ⟨le_rfl, fun heq => absurd heq hne⟩
    · rw [if_neg hi]
      exact ⟨Nat.zero_le _, fun _ hpos => hpos⟩
  · intro s i _ _ _ hi
    refine ⟨dijkstra_ne_none s i, fun hidle => ?_⟩
    rw [show s.pc i = .idle from hidle] at hi
    exact absurd hi (Nat.lt_irrefl 0)

/-- Who writes `k` writes its own number, and wants to enter. -/
theorem dijkstra_k (h : dijkstra s t = some s') :
    s'.k = s.k ∨ s'.k = t ∧ s'.pc t = .readK := by
  cases dijkstra_step h with
  | writeK hpc => exact .inr ⟨rfl, by simp⟩
  | request hpc | another hpc _ | own hpc _ | clearPassed hpc | readKAgain hpc
  | notInterested j hpc _ | interested j hpc _ | setPassed hpc | goBack j hj hpc _ _
  | advance j hj hpc _ _ | enter j hpc _ | leave hpc | clearInterested hpc =>
    exact .inl rfl

/-- How far a process is from writing `k`, as long as `k` is the number of one that does not want
to enter. -/
def toWrite (s : State N) (p : Fin N) : ℕ :=
  match s.pc p with
  | .writeK => 1
  | .readInterested j => if j = s.k then 2 else 6
  | .readKAgain => 3
  | .clearPassed => 4
  | .readK => 5
  | .scan j => 7 + (N - j)
  | .setPassed => 8 + N
  | .idle | .critical | .clearInterested => 0

theorem toWrite_own (hs : Flags s) (hp : (s.pc p).Trying) (hidle : s.pc s.k = .idle)
    (h : dijkstra s p = some s') (hk : s'.k = s.k) :
    s'.pc p = .critical ∨ toWrite s' p < toWrite s p := by
  have hne : s.k ≠ p := by
    rintro rfl
    rw [hidle] at hp
    exact hp
  have hdown := (hs.interested s.k).mpr hidle
  unfold toWrite
  cases dijkstra_step h with
  | enter j hpc _ => exact .inl (by simp)
  | another hpc _ | clearPassed hpc | readKAgain hpc | setPassed hpc =>
    exact .inr (by simp [hpc])
  | notInterested j hpc _ =>
    refine .inr ?_
    simp only [Function.update_self, hpc]
    split_ifs <;> simp
  | interested j hpc hup =>
    have hjk : j ≠ s.k := by
      rintro rfl
      rw [hdown] at hup
      cases hup
    exact .inr (by simp [hpc, hjk])
  | goBack j hj hpc _ _ =>
    refine .inr ?_
    simp only [Function.update_self, hpc]
    omega
  | advance j hj hpc _ _ =>
    refine .inr ?_
    simp only [Function.update_self, hpc]
    omega
  | own hpc hown => exact absurd hown hne
  | writeK hpc => exact absurd hk.symm hne
  | request hpc | leave hpc | clearInterested hpc =>
    rw [hpc] at hp
    exact hp.elim

/-- Somebody who wants to enter comes to write `k`, if it is the number of one that does not. -/
theorem named {e : (processes k₀).Execution} (hfair : e.Fair rests) (p : Fin N) :
    e.LeadsTo (fun s => (Cleared s ∧ (s.pc p).Trying) ∧ s.pc s.k = .idle)
      fun s => Inside s ∨ Cleared s ∧ (s.pc s.k).Trying := by
  refine hfair.leadsTo (μ := fun s => toWrite s p) (H := fun _ t => t = p) ?_
    (fun _ _ _ _ => ⟨_, rfl⟩) ?_
  · rintro s q t s' hr ⟨⟨hclear, hp⟩, hidle⟩ hQ hq h
    subst hq
    have hin : ¬ Inside s := fun hin => hQ (.inl hin)
    have hclear' := hclear.step hin h
    rcases trying_step hp h with hp' | hcrit
    · rcases dijkstra_k h with hk | ⟨hk, hpc⟩
      · rcases eq_or_ne s.k t with rfl | hkt
        · -- the process in question begins to want to enter
          refine .inl (.inr ⟨hclear', ?_⟩)
          simp only [processes, dijkstra, hidle] at h
          cases h
          simp [Pc.Trying]
        · have hidle' : s'.pc s'.k = .idle := by rw [hk, (dijkstra_frame h hkt).2, hidle]
          refine .inr ⟨⟨⟨hclear', hp'⟩, hidle'⟩, ?_⟩
          rcases eq_or_ne q t with rfl | hne
          · rcases toWrite_own (flags hr) hp hidle h hk with hcrit | hlt
            · rw [hcrit] at hp'
              exact hp'.elim
            · exact .inl hlt
          · refine .inr ⟨?_, hne.symm, rfl⟩
            simp only [toWrite, (dijkstra_frame h hne).2, hk]
      · refine .inl (.inr ⟨hclear', ?_⟩)
        rw [hk, hpc]
        trivial
    · exact .inl (.inl ⟨q, hcrit⟩)
  · rintro s t - ⟨⟨-, hp⟩, -⟩ - rfl
    refine ⟨dijkstra_ne_none s _, fun hrest => ?_⟩
    rw [show s.pc t = .idle from hrest] at hp
    exact hp

/-- What a process has to do until it cannot write `k` any more: it has found a flag down, or is
about to. -/
def pending (s : State N) (i : Fin N) : ℕ :=
  match s.pc i with
  | .writeK => 1
  | .readInterested j => if s.interested j = false then 2 else 0
  | _ => 0

/-- A flag in `interested` that is up remains up. -/
theorem interested_step (hclear : Cleared s) (h : dijkstra s t = some s') {i : Fin N}
    (hi : s.interested i = true) : s'.interested i = true := by
  rcases eq_or_ne i t with rfl | hne
  · cases dijkstra_step h with
    | request hpc => exact Function.update_self ..
    | clearInterested hpc => exact absurd hpc (hclear i)
    | another hpc _ | own hpc _ | clearPassed hpc | readKAgain hpc | notInterested j hpc _
    | interested j hpc _ | writeK hpc | setPassed hpc | goBack j hj hpc _ _ | advance j hj hpc _ _
    | enter j hpc _ | leave hpc =>
      exact hi
  · rw [dijkstra_interested h hne, hi]

/-- While `k` is the number of a process that wants to enter, nobody gets to write it that was not
about to. -/
theorem pending_step (hs : Flags s) (hclear : Cleared s) (hk : (s.pc s.k).Trying)
    (h : dijkstra s t = some s') (i : Fin N) :
    pending s' i ≤ pending s i ∧ (t = i → 0 < pending s i → pending s' i < pending s i) := by
  have hup : s.interested s.k = true := by
    rw [← Bool.not_eq_false, hs.interested]
    rintro hidle
    rw [hidle] at hk
    exact hk
  rcases eq_or_ne i t with rfl | hne
  · cases dijkstra_step h with
    | readKAgain hpc =>
      -- the flag that it is about to read is up
      simp [pending, hpc, hup]
    | notInterested j hpc hj | interested j hpc hj => simp [pending, hpc, hj]
    | request hpc | another hpc _ | own hpc _ | clearPassed hpc | writeK hpc | setPassed hpc
    | goBack j hj hpc _ _ | advance j hj hpc _ _ | enter j hpc _ | leave hpc
    | clearInterested hpc =>
      simp [pending, hpc]
  · refine ⟨?_, fun heq => absurd heq.symm hne⟩
    simp only [pending, (dijkstra_frame h hne).2]
    cases s.pc i with
    | readInterested j =>
      simp only
      cases hj : s.interested j with
      | true => rw [interested_step hclear h hj]
      | false =>
        rw [if_pos rfl]
        split_ifs
        · exact le_rfl
        · exact Nat.zero_le 2
    | idle | readK | clearPassed | readKAgain | writeK | setPassed | scan j | critical
    | clearInterested => exact le_rfl

/-- `k` goes on being the number of a process that wants to enter, until somebody does. -/
theorem trying_k_step (hk : (s.pc s.k).Trying) (h : dijkstra s t = some s') :
    Inside s' ∨ (s'.pc s'.k).Trying := by
  rcases dijkstra_k h with heq | ⟨heq, hpc⟩
  · rw [heq]
    rcases trying_step hk h with htry | hcrit
    · exact .inr htry
    · exact .inl ⟨_, hcrit⟩
  · rw [heq, hpc]
    exact .inr trivial

theorem not_rests_of_pending {i : Fin N} (h : 0 < pending s i) : ¬ rests s i := by
  intro hidle
  rw [pending, show s.pc i = .idle from hidle] at h
  exact absurd h (Nat.lt_irrefl 0)

/-- Those who were about to write `k` do so. -/
theorem unwritten {e : (processes k₀).Execution} (hfair : e.Fair rests) :
    e.LeadsTo (fun s => Cleared s ∧ (s.pc s.k).Trying)
      fun s => Inside s ∨ (Cleared s ∧ (s.pc s.k).Trying) ∧ ∀ i, pending s i = 0 := by
  refine hfair.leadsTo_of_weights id ?_ fun s i _ _ _ hi =>
    ⟨dijkstra_ne_none s i, not_rests_of_pending hi⟩
  rintro s t s' hr ⟨hclear, hk⟩ hin h
  exact (trying_k_step hk h).imp_right fun hk' =>
    ⟨⟨hclear.step hin h, hk'⟩, pending_step (flags hr) hclear hk h⟩

/-! ### The way in -/

/-- `k` is the number of a process that wants to enter, and nobody will write it. -/
structure Named (s : State N) (m : Fin N) : Prop where
  cleared : Cleared s
  trying : (s.pc m).Trying
  k : s.k = m
  pending : ∀ i, pending s i = 0

theorem Named.step (hm : Named s m) (hs : Flags s) (hin : ¬ Inside s)
    (h : dijkstra s t = some s') : Inside s' ∨ Named s' m := by
  obtain ⟨hclear, htry, rfl, hpend⟩ := hm
  rcases trying_step htry h with htry' | hcrit
  · have hk : s'.k = s.k := by
      have ht := hpend t
      cases dijkstra_step h with
      | writeK hpc => simp [Dijkstra.pending, hpc] at ht
      | request hpc | another hpc _ | own hpc _ | clearPassed hpc | readKAgain hpc
      | notInterested j hpc _ | interested j hpc _ | setPassed hpc | goBack j hj hpc _ _
      | advance j hj hpc _ _ | enter j hpc _ | leave hpc | clearInterested hpc =>
        rfl
    exact .inr ⟨hclear.step hin h, htry', hk, fun i =>
      Nat.le_zero.mp ((pending_step hs hclear htry h i).1.trans (hpend i).le)⟩
  · exact .inl ⟨_, hcrit⟩

/-- What a process has to do until its flag in `passed` is down for good. -/
def toSettle (s : State N) (p : Fin N) : ℕ :=
  match s.pc p with
  | .setPassed => 4 + N
  | .scan j => 3 + (N - j)
  | .readK => if s.passed p = true then 2 else 0
  | .clearPassed => if s.passed p = true then 1 else 0
  | _ => 0

theorem toSettle_own (hs : Flags s) (hne : s.k ≠ p) (h : dijkstra s p = some s') :
    s'.pc p = .critical ∨
      toSettle s' p ≤ toSettle s p ∧ (0 < toSettle s p → toSettle s' p < toSettle s p) := by
  have hpassed := hs.passed p
  unfold toSettle
  cases dijkstra_step h with
  | enter j hpc _ => exact .inl (by simp)
  | request hpc | notInterested j hpc _ | interested j hpc _ | writeK hpc =>
    rw [hpc] at hpassed
    have hdown : s.passed p = false := Bool.eq_false_iff.mpr hpassed
    exact .inr (by simp [hpc, hdown])
  | another hpc _ =>
    refine .inr ?_
    simp only [Function.update_self, hpc]
    split_ifs <;> simp
  | own hpc hk => exact absurd hk hne
  | goBack j hj hpc _ _ =>
    refine .inr ?_
    simp only [Function.update_self, hpc]
    split_ifs <;> omega
  | advance j hj hpc _ _ =>
    refine .inr ?_
    simp only [Function.update_self, hpc]
    omega
  | clearPassed hpc | readKAgain hpc | setPassed hpc | leave hpc | clearInterested hpc =>
    exact .inr (by simp [hpc])

/-- What the others have to do. -/
def othersToSettle (s : State N) (m p : Fin N) : ℕ := if p = m then 0 else toSettle s p

theorem othersToSettle_step (hs : Flags s) (hm : Named s m) (h : dijkstra s t = some s')
    (p : Fin N) : Inside s' ∨ othersToSettle s' m p ≤ othersToSettle s m p ∧
      (t = p → 0 < othersToSettle s m p → othersToSettle s' m p < othersToSettle s m p) := by
  unfold othersToSettle
  split_ifs with hpm
  · exact .inr ⟨le_rfl, fun _ hpos => hpos⟩
  · rcases eq_or_ne p t with rfl | hne
    · rcases toSettle_own hs (fun hk => hpm (hk.symm.trans hm.k)) h with hcrit | ⟨hle, hlt⟩
      · exact .inl ⟨p, hcrit⟩
      · exact .inr ⟨hle, fun _ => hlt⟩
    · refine .inr ⟨?_, fun heq => absurd heq.symm hne⟩
      simp only [toSettle, dijkstra_frame h hne]
      exact le_rfl

theorem not_rests_of_toSettle (h : 0 < toSettle s p) : ¬ rests s p := by
  intro hidle
  rw [toSettle, show s.pc p = .idle from hidle] at h
  exact absurd h (Nat.lt_irrefl 0)

/-- The others give up their flags. -/
theorem settles {e : (processes k₀).Execution} (hfair : e.Fair rests) (m : Fin N) :
    e.LeadsTo (fun s => Named s m)
      fun s => Inside s ∨ Named s m ∧ ∀ p, othersToSettle s m p = 0 := by
  refine hfair.leadsTo_of_weights id ?_ fun s p _ _ _ hp =>
    ⟨dijkstra_ne_none s p, not_rests_of_toSettle ?_⟩
  · intro s t s' hr hm hin h
    by_cases hin' : Inside s'
    · exact .inl hin'
    · exact .inr ⟨(hm.step (flags hr) hin h).resolve_left hin', fun p =>
        (othersToSettle_step (flags hr) hm h p).resolve_left hin'⟩
  · rw [othersToSettle] at hp
    split_ifs at hp
    · exact absurd hp (Nat.lt_irrefl 0)
    · exact hp

/-- Who has nothing left to do has its flag down. -/
theorem down_of_settled (hs : Flags s) (hin : ¬ Inside s) (h : toSettle s p = 0) :
    s.passed p = false := by
  by_contra hup
  rw [Bool.not_eq_false] at hup
  have hmay := hs.passed p hup
  have hcrit : s.pc p ≠ .critical := fun hc => hin ⟨p, hc⟩
  unfold toSettle at h
  cases hpc : s.pc p with
  | readK | clearPassed =>
    rw [hpc, hup] at h
    cases h
  | setPassed | scan j =>
    rw [hpc] at h
    simp at h
  | critical => exact hcrit hpc
  | idle | readKAgain | readInterested j | writeK | clearInterested =>
    rw [hpc] at hmay
    exact hmay

/-- How far the process is from entering whose number is `k`, when no flag of another is up. -/
def toEnter (s : State N) (m : Fin N) : ℕ :=
  match s.pc m with
  | .scan j => 1 + (N - j)
  | .setPassed => 2 + N
  | .readK => 3 + N
  | .writeK => 4 + N
  | .readInterested _ => 5 + N
  | .readKAgain => 6 + N
  | .clearPassed => 7 + N
  | .idle | .critical | .clearInterested => 0

theorem toEnter_own (hk : s.k = m) (htry : (s.pc m).Trying)
    (hdown : ∀ i, i ≠ m → s.passed i = false) (h : dijkstra s m = some s') :
    s'.pc m = .critical ∨ toEnter s' m < toEnter s m := by
  unfold toEnter
  cases dijkstra_step h with
  | enter j hpc _ => exact .inl (by simp)
  | own hpc _ | clearPassed hpc | readKAgain hpc | notInterested j hpc _ | interested j hpc _
  | writeK hpc | setPassed hpc =>
    exact .inr (by simp [hpc])
  | advance j hj hpc _ _ =>
    refine .inr ?_
    simp only [Function.update_self, hpc]
    omega
  | goBack j hj hpc hne hup =>
    have hflag := hdown ⟨j, hj⟩ fun heq => hne (congrArg Fin.val heq)
    rw [hflag] at hup
    cases hup
  | another hpc hother => exact absurd hk hother
  | request hpc | leave hpc | clearInterested hpc =>
    rw [hpc] at htry
    exact htry.elim

/-- When the others have given up their flags, the process whose number is `k` enters. -/
theorem admits {e : (processes k₀).Execution} (hfair : e.Fair rests) (m : Fin N) :
    e.LeadsTo (fun s => Named s m ∧ ∀ p, othersToSettle s m p = 0) Inside := by
  refine hfair.leadsTo (μ := fun s => toEnter s m) (H := fun _ t => t = m) ?_
    (fun _ _ _ _ => ⟨_, rfl⟩) ?_
  · rintro s q t s' hr ⟨hm, hsettled⟩ hin hq h
    subst hq
    have hs := flags hr
    by_cases hin' : Inside s'
    · exact .inl hin'
    refine .inr ⟨⟨(hm.step hs hin h).resolve_left hin', fun p => Nat.le_zero.mp ?_⟩, ?_⟩
    · exact ((othersToSettle_step hs hm h p).resolve_left hin').1.trans (hsettled p).le
    · rcases eq_or_ne q t with rfl | hne
      · have hdown : ∀ i, i ≠ q → s.passed i = false := fun i hi => by
          have hzero := hsettled i
          rw [othersToSettle, if_neg hi] at hzero
          exact down_of_settled hs hin hzero
        rcases toEnter_own hm.k hm.trying hdown h with hcrit | hlt
        · exact absurd ⟨q, hcrit⟩ hin'
        · exact .inl hlt
      · refine .inr ⟨?_, hne.symm, rfl⟩
        simp only [toEnter, (dijkstra_frame h hne).2]
  · rintro s t - ⟨hm, -⟩ - rfl
    refine ⟨dijkstra_ne_none s _, fun hrest => ?_⟩
    have htry := hm.trying
    rw [show s.pc t = .idle from hrest] at htry
    exact htry

/-! ### Progress -/

/-- If somebody wants to enter, somebody is inside, then or later. -/
theorem inside_leadsTo {e : (processes k₀).Execution} (hfair : e.Fair rests) :
    e.LeadsTo Wanted Inside := by
  have hinside : e.LeadsTo Inside Inside := .of_imp fun _ _ h => h
  have hnamed : e.LeadsTo (fun s => Cleared s ∧ (s.pc s.k).Trying) Inside := by
    refine (unwritten hfair).trans (hinside.or ?_)
    rintro n ⟨⟨hclear, hk⟩, hpend⟩
    exact ((settles hfair _).trans (hinside.or (admits hfair _))) n ⟨hclear, hk, rfl, hpend⟩
  refine (clears hfair).trans (hinside.or ?_)
  rintro n ⟨⟨p, hp⟩, hclear⟩
  cases hpc : (e.state n).pc (e.state n).k with
  | idle => exact ((named hfair p).trans (hinside.or hnamed)) n ⟨⟨hclear, hp⟩, hpc⟩
  | critical => exact ⟨n, le_rfl, _, hpc⟩
  | clearInterested => exact absurd hpc (hclear _)
  | readK | clearPassed | readKAgain | readInterested j | writeK | setPassed | scan j =>
    refine hnamed n ⟨hclear, ?_⟩
    rw [hpc]
    trivial

/-- Process `p` enters with the step from moment `n`. -/
def Enters (e : (processes k₀).Execution) (p : Fin N) (n : ℕ) : Prop :=
  (e.state n).pc p ≠ .critical ∧ (e.state (n + 1)).pc p = .critical

/-- Who is inside leaves. -/
theorem leaves {e : (processes k₀).Execution} (hfair : e.Fair rests) (p : Fin N) :
    e.LeadsTo (fun s => s.pc p = .critical) fun s => s.pc p ≠ .critical := by
  refine hfair.leadsTo (μ := fun _ => 0) (H := fun _ t => t = p) ?_
    (fun _ _ _ _ => ⟨_, rfl⟩) ?_
  · rintro s q t s' - hcrit - hq h
    subst hq
    rcases eq_or_ne q t with rfl | hne
    · simp only [processes, dijkstra, hcrit] at h
      cases h
      exact .inl (by simp)
    · exact .inr ⟨(dijkstra_frame h hne).2.trans hcrit, .inr ⟨rfl, hne.symm, rfl⟩⟩
  · rintro s t - hcrit - rfl
    refine ⟨dijkstra_ne_none s _, fun hrest => ?_⟩
    rw [show s.pc t = .idle from hrest] at hcrit
    cases hcrit

/-- **No standstill**: in every schedule in which the processes that are not outside go on running,
whenever somebody wants to enter, somebody enters, then or later, whoever may be inside by then. -/
theorem enters (k₀ : Fin N) (e : (processes k₀).Execution) (hfair : e.Fair rests) (n : ℕ)
    (hw : Wanted (e.state n)) : ∃ m p, n ≤ m ∧ Enters e p m := by
  by_contra hnone
  have hstays : ∀ p m, n ≤ m → (e.state m).pc p ≠ .critical →
      ∀ j, (e.state (m + j)).pc p ≠ .critical := by
    intro p m hnm hout j
    induction j with
    | zero => exact hout
    | succ j ih => exact fun hin => hnone ⟨m + j, p, hnm.trans (Nat.le_add_right m j), ih, hin⟩
  -- from some moment on nobody is inside
  have houtside : ∀ p, ∃ m, n ≤ m ∧ ∀ j, (e.state (m + j)).pc p ≠ .critical := by
    intro p
    by_cases hcrit : (e.state n).pc p = .critical
    · obtain ⟨m, hnm, hout⟩ := leaves hfair p n hcrit
      exact ⟨m, hnm, hstays p m hnm hout⟩
    · exact ⟨n, le_rfl, hstays p n le_rfl hcrit⟩
  choose start hstart hout using houtside
  obtain ⟨M, hM⟩ : ∃ M, ∀ p, start p ≤ M :=
    ⟨Finset.univ.sup start, fun p => Finset.le_sup (Finset.mem_univ p)⟩
  obtain ⟨p, hp⟩ := hw
  -- and who wants to enter goes on wanting to
  have htrying : ∀ j, ((e.state (n + j)).pc p).Trying := by
    intro j
    induction j with
    | zero => exact hp
    | succ j ih =>
      rw [← Nat.add_assoc]
      cases h : (processes k₀).step (e.state (n + j)) (e.agent (n + j)) with
      | none => rwa [Execution.next_of_none h]
      | some s =>
        have hs : e.state (n + j + 1) = s := Execution.next_of_some h
        rcases trying_step ih h with htry | hcrit
        · rwa [hs]
        · refine absurd ⟨n + j, p, Nat.le_add_right n j, ?_, hs ▸ hcrit⟩ hnone
          intro hc
          rw [hc] at ih
          exact ih
  obtain ⟨j, hj⟩ := Nat.exists_eq_add_of_le ((hstart p).trans (hM p))
  obtain ⟨m, hMm, q, hq⟩ := inside_leadsTo hfair M ⟨p, hj ▸ htrying j⟩
  obtain ⟨i, rfl⟩ := Nat.exists_eq_add_of_le ((hM q).trans hMm)
  exact hout q i hq

theorem length_finRange_pos : 0 < (List.finRange 2).length := Nat.two_pos

/-- Two processes in turn. -/
def inTurn : (processes (Fin.last 1)).Execution :=
  execution rfl (cycle (List.finRange 2) length_finRange_pos)

theorem enters_inTurn : ∃ m p, 1 ≤ m ∧ Enters inTurn p m :=
  enters (Fin.last 1) inTurn (fair_cycle List.mem_finRange) 1 ⟨Fin.castSucc (Fin.last 0), trivial⟩

/-! ### Starvation -/

section Starvation

variable (hN : 2 ≤ N)

/-- Processes 0 and 1 want to enter, the others do not, and `k` is 0. -/
structure Meets (s : State N) : Prop where
  k : s.k = zero hN
  pc_zero : s.pc (zero hN) = .readK
  pc_one : s.pc (one hN) = .readK
  others : ∀ i, i ≠ zero hN → i ≠ one hN → s.pc i = .idle
  interested : s.interested (zero hN) = true
  passed_zero : s.passed (zero hN) = false
  passed_one : s.passed (one hN) = false

/-- Process 0 begins, and then process 1. -/
theorem run_begin (hzero : s.pc (zero hN) = .idle) (hone : s.pc (one hN) = .idle) :
    (processes k₀).run s [zero hN, one hN] = some
      { s with
        interested := update (update s.interested (zero hN) true) (one hN) true
        pc := update (update s.pc (zero hN) .readK) (one hN) .readK } := by
  simp [Machine.run, processes, dijkstra, hzero, hone]

/-- Process 0 makes `k` its number first. -/
theorem run_name (hk : s.k ≠ zero hN) (hint : s.interested s.k = false)
    (hzero : s.pc (zero hN) = .idle) (hone : s.pc (one hN) = .idle) :
    (processes k₀).run s (List.replicate 6 (zero hN) ++ [one hN]) = some
      { s with
        k := zero hN
        passed := update s.passed (zero hN) false
        interested := update (update s.interested (zero hN) true) (one hN) true
        pc := update (update s.pc (zero hN) .readK) (one hN) .readK } := by
  simp [List.replicate, Machine.run, processes, dijkstra, hk, hint, hzero, hone]

theorem exists_meets (k₀ : Fin N) :
    ∃ stem u, (processes k₀).run (start k₀) stem = some u ∧ Meets hN u := by
  by_cases hk : k₀ = zero hN
  · refine ⟨_, _, run_begin hN rfl rfl, ⟨hk, by simp, by simp, fun i h₀ h₁ => ?_, by simp, rfl,
      rfl⟩⟩
    simp [h₀, h₁, start]
  · refine ⟨_, _, run_name hN hk rfl rfl rfl, ⟨rfl, by simp, by simp, fun i h₀ h₁ => ?_, by simp,
      by simp, by simp [start]⟩⟩
    simp [h₀, h₁, start]

/-- While process 0 wants to enter, process 1 gets round its loop and back. -/
theorem Meets.run_one (hs : Meets hN s) :
    (processes k₀).run s (List.replicate 4 (one hN)) = some s := by
  have hpassed : update s.passed (one hN) false = s.passed := by
    rw [← hs.passed_one, Function.update_eq_self]
  have hpc : update s.pc (one hN) .readK = s.pc := by
    rw [← hs.pc_one, Function.update_eq_self]
  simp [List.replicate, Machine.run, processes, dijkstra, hs.pc_one, hs.k, hs.interested, hpassed,
    hpc]
  rw [← hs.k]

/-- Process 0 enters, leaves and wants to enter again, while process 1 is at the head of its
loop. -/
theorem Meets.run_zero (hs : Meets hN s) :
    (processes k₀).run s (List.replicate 6 (zero hN)) = some s := by
  have hpassed : update s.passed (zero hN) false = s.passed := by
    rw [← hs.passed_zero, Function.update_eq_self]
  have hint : update s.interested (zero hN) true = s.interested := by
    rw [← hs.interested, Function.update_eq_self]
  have hpc : update s.pc (zero hN) .readK = s.pc := by
    rw [← hs.pc_zero, Function.update_eq_self]
  simp [List.replicate, Machine.run, processes, dijkstra, hs.pc_zero, hs.k, hpassed, hint, hpc]
  rw [← hs.k]

/-- Process 1 in its loop, while process 0 wants to enter and nobody else does. -/
structure Waits (s : State N) : Prop where
  trying : (s.pc (one hN)).Trying
  others : ∀ i, i ≠ zero hN → i ≠ one hN → s.pc i = .idle

theorem Waits.eq_zero (hs : Waits hN s) {i : Fin N} (hi : s.pc i = .critical) : i = zero hN := by
  by_contra h₀
  rcases eq_or_ne i (one hN) with rfl | h₁
  · have htry := hs.trying
    rw [hi] at htry
    exact htry
  · rw [hs.others i h₀ h₁] at hi
    cases hi

/-- The program points of the loop, for a process that finds `k` to be 0. -/
structure Spins (s : State N) : Prop where
  k : s.k = zero hN
  interested : s.interested (zero hN) = true
  pc : s.pc (one hN) = .readK ∨ s.pc (one hN) = .clearPassed ∨ s.pc (one hN) = .readKAgain ∨
    s.pc (one hN) = .readInterested (zero hN)
  others : ∀ i, i ≠ zero hN → i ≠ one hN → s.pc i = .idle

theorem Spins.waits (hs : Spins hN s) : Waits hN s := by
  refine ⟨?_, hs.others⟩
  rcases hs.pc with h | h | h | h <;> rw [h] <;> trivial

theorem Spins.step (hs : Spins hN s) (h : dijkstra s (one hN) = some s') : Spins hN s' := by
  have hothers : ∀ i, i ≠ zero hN → i ≠ one hN → s'.pc i = .idle := fun i h₀ h₁ => by
    rw [(dijkstra_frame h h₁).2, hs.others i h₀ h₁]
  have hint := dijkstra_interested h (zero_ne_one hN)
  rw [hs.interested] at hint
  have hself : ∀ pc, update s.pc (one hN) pc (one hN) = pc := fun _ => Function.update_self ..
  have hloop := hs.pc
  cases dijkstra_step h with
  | another => exact ⟨hs.k, hint, .inr (.inl (hself _)), hothers⟩
  | own _ hk => exact absurd (hs.k.symm.trans hk) (zero_ne_one hN)
  | clearPassed => exact ⟨hs.k, hint, .inr (.inr (.inl (hself _))), hothers⟩
  | readKAgain =>
    refine ⟨hs.k, hint, .inr (.inr (.inr ?_)), hothers⟩
    rw [← hs.k]
    exact hself _
  | notInterested j hpc hnot =>
    -- the process asked is 0, which wants to enter
    obtain rfl : j = zero hN := by simpa [hpc] using hloop
    rw [hs.interested] at hnot
    cases hnot
  | interested => exact ⟨hs.k, hint, .inl (hself _), hothers⟩
  | request hpc | writeK hpc | setPassed hpc | goBack j _ hpc _ _ | advance j _ hpc _ _
  | enter j hpc _ | leave hpc | clearInterested hpc =>
    rw [hpc] at hloop
    simp at hloop

/-- In no state of the round has process 1 got anywhere. -/
theorem Meets.waits (hs : Meets hN s) {ts us : List (Fin N)}
    (hsplit : ts ++ us = List.replicate 4 (one hN) ++ List.replicate 6 (zero hN))
    (h : (processes k₀).run s ts = some s') : Waits hN s' := by
  rcases List.append_eq_append_iff.mp hsplit with ⟨more, hts, -⟩ | ⟨more, hts, hmore⟩
  · have hspins : Spins hN s := ⟨hs.k, hs.interested, .inl hs.pc_one, hs.others⟩
    refine (run_invariant_of_mem (I := Spins hN) (fun s t s' ht hs hstep => ?_) h hspins).waits
    obtain rfl : t = one hN :=
      List.eq_of_mem_replicate (hts ▸ List.mem_append_left more ht)
    exact hs.step hN hstep
  · rw [hts, run_append_eq_some] at h
    obtain ⟨u, hu, hrun⟩ := h
    obtain rfl : s = u := Option.some.inj ((hs.run_one hN).symm.trans hu)
    have hwaits : Waits hN s := ⟨by rw [hs.pc_one]; trivial, hs.others⟩
    refine run_invariant_of_mem (I := Waits hN) (fun s t s' ht hs hstep => ?_) hrun hwaits
    obtain rfl : t = zero hN :=
      List.eq_of_mem_replicate (hmore ▸ List.mem_append_left us ht)
    have hone := (dijkstra_frame hstep (zero_ne_one hN).symm).2
    refine ⟨by rw [hone]; exact hs.trying, fun i h₀ h₁ => ?_⟩
    rw [(dijkstra_frame hstep h₀).2, hs.others i h₀ h₁]

end Starvation

/-- **Starvation**: for two processes or more and any initial `k`, there is a schedule in which all
that are not outside go on running, one process enters again and again, and another one wants to
enter for ever. -/
theorem can_starve (N : ℕ) (hN : 2 ≤ N) (k₀ : Fin N) : ∃ e : (processes k₀).Execution,
    e.Fair rests ∧ ∃ p q n, ∀ m, ((e.state (n + m)).pc p).Trying ∧
      ∃ j, m ≤ j ∧ (e.state (n + j)).pc q = .critical := by
  obtain ⟨stem, u, hstem, hu⟩ := exists_meets hN k₀
  have hloop : (processes k₀).run u
      (List.replicate 4 (one hN) ++ List.replicate 6 (zero hN)) = some u :=
    run_append (hu.run_one hN) (hu.run_zero hN)
  have hpos : 0 < (List.replicate 4 (one hN) ++ List.replicate 6 (zero hN)).length := by simp
  have hwaits : ∀ n, Waits hN ((processes k₀).states (start k₀)
      (lasso stem (List.replicate 4 (one hN) ++ List.replicate 6 (zero hN)) hpos)
      (stem.length + n)) := fun n => by
    obtain ⟨ts, us, hsplit, hrun⟩ := states_lasso (h := hpos) hstem hloop n
    exact hu.waits hN hsplit hrun
  have hfair : (execution (M := processes k₀) rfl
      (lasso stem (List.replicate 4 (one hN) ++ List.replicate 6 (zero hN)) hpos)).Fair rests := by
    refine fair_lasso fun t => ?_
    by_cases h₀ : t = zero hN
    · exact .inl (by simp [h₀])
    · by_cases h₁ : t = one hN
      · exact .inl (by simp [h₁])
      · exact .inr fun n => (hwaits n).others t h₀ h₁
  refine ⟨_, hfair, one hN, zero hN, stem.length, fun m => ⟨(hwaits m).trying, ?_⟩⟩
  obtain ⟨j, hj, i, hi⟩ := inside_leadsTo hfair (stem.length + m) ⟨_, (hwaits m).trying⟩
  obtain ⟨d, rfl⟩ := Nat.exists_eq_add_of_le hj
  refine ⟨m + d, Nat.le_add_right m d, ?_⟩
  rw [← Nat.add_assoc]
  have hwait := hwaits (m + d)
  rw [← Nat.add_assoc] at hwait
  exact hwait.eq_zero hN hi ▸ hi

/-- The ten processes of the program. -/
theorem can_starve_ten : ∃ e : (processes (Fin.last 9)).Execution,
    e.Fair rests ∧ ∃ p q n, ∀ m, ((e.state (n + m)).pc p).Trying ∧
      ∃ j, m ≤ j ∧ (e.state (n + j)).pc q = .critical :=
  can_starve 10 (by decide) (Fin.last 9)

end Dijkstra
