/-
Dekker's algorithm of `dekker.c`.

The two processes run `dekker()` again and again, with `me` and `other`
exchanged; each read or write of `flag[]` and `turn` is one step.

* `DekkerStep` — what a step can do;
* `mutual_exclusion` — the two are never in the critical section together;
* `exists_entry` — when somebody wants to enter and nobody is inside, steps of
  entry and exit code bring somebody in;
* `exclusion_and_progress` — the two together.
-/
import SistemiDiCalcolo.Machine
import Mathlib.Logic.Function.Basic
import Mathlib.Logic.Relation
import Mathlib.Tactic.Common

open Function (update)

namespace Dekker

/-- The two processes. -/
inductive Proc
  | p0
  | p1
  deriving DecidableEq, Repr

/-- `other`, as process `me` has it. -/
def Proc.other : Proc → Proc
  | .p0 => .p1
  | .p1 => .p0

@[simp] theorem Proc.other_other (p : Proc) : p.other.other = p := by
  cases p <;> rfl

@[simp] theorem Proc.other_ne (p : Proc) : p.other ≠ p := by
  cases p <;> decide

@[simp] theorem Proc.ne_other (p : Proc) : p ≠ p.other := (Proc.other_ne p).symm

theorem Proc.eq_or_other (p q : Proc) : q = p ∨ q = p.other := by
  cases p <;> cases q <;> decide

/-- Program points of `dekker()`, each just before the read or write it names. -/
inductive Pc
  | idle
  | setFlag
  | testFlag
  | testTurn
  | lowerFlag
  | spin
  | raiseFlag
  | critical
  | setTurn
  | clearFlag
  deriving DecidableEq, Repr

/-- The shared variables and the program points. -/
structure State where
  flag : Proc → Bool
  turn : Proc
  pc : Proc → Pc

/-- The next step of process `me` in `dekker()`. -/
def dekker (s : State) (me : Proc) : Option State :=
  match s.pc me with
  | .idle => some { s with pc := update s.pc me .setFlag }
  | .setFlag =>
    some { s with flag := update s.flag me true, pc := update s.pc me .testFlag }
  | .testFlag =>
    if s.flag me.other then some { s with pc := update s.pc me .testTurn }
    else some { s with pc := update s.pc me .critical }
  | .testTurn =>
    if s.turn = me.other then some { s with pc := update s.pc me .lowerFlag }
    else some { s with pc := update s.pc me .testFlag }
  | .lowerFlag =>
    some { s with flag := update s.flag me false, pc := update s.pc me .spin }
  | .spin =>
    -- the busy wait: a read that fails leaves the process where it is
    if s.turn = me.other then some s
    else some { s with pc := update s.pc me .raiseFlag }
  | .raiseFlag =>
    some { s with flag := update s.flag me true, pc := update s.pc me .testFlag }
  | .critical => some { s with pc := update s.pc me .setTurn }
  | .setTurn => some { s with turn := me.other, pc := update s.pc me .clearFlag }
  | .clearFlag =>
    some { s with flag := update s.flag me false, pc := update s.pc me .idle }

/-- The two processes, both flags down and `turn` zero. -/
def processes : Machine State Proc where
  init s := s = { flag := fun _ => false, turn := .p0, pc := fun _ => .idle }
  step := dekker

/-- The entry code, from the write of the flag to the test that lets in. -/
def Pc.Entry (c : Pc) : Prop :=
  c = .setFlag ∨ c = .testFlag ∨ c = .testTurn ∨ c = .lowerFlag ∨ c = .spin ∨ c = .raiseFlag

/-- The exit code. -/
def Pc.Exit (c : Pc) : Prop := c = .setTurn ∨ c = .clearFlag

instance (c : Pc) : Decidable c.Entry := inferInstanceAs (Decidable (_ ∨ _))

instance (c : Pc) : Decidable c.Exit := inferInstanceAs (Decidable (_ ∨ _))

/-! ### What a step can do -/

/-- A step of process `me`, with what it has read. -/
inductive DekkerStep (s : State) (me : Proc) : State → Prop
  | ask : s.pc me = .idle → DekkerStep s me { s with pc := update s.pc me .setFlag }
  | setFlag : s.pc me = .setFlag → DekkerStep s me { s with
      flag := update s.flag me true
      pc := update s.pc me .testFlag }
  | heldUp : s.pc me = .testFlag → s.flag me.other = true →
      DekkerStep s me { s with pc := update s.pc me .testTurn }
  | enter : s.pc me = .testFlag → s.flag me.other = false →
      DekkerStep s me { s with pc := update s.pc me .critical }
  | giveWay : s.pc me = .testTurn → s.turn = me.other →
      DekkerStep s me { s with pc := update s.pc me .lowerFlag }
  | insist : s.pc me = .testTurn → s.turn = me →
      DekkerStep s me { s with pc := update s.pc me .testFlag }
  | lowerFlag : s.pc me = .lowerFlag → DekkerStep s me { s with
      flag := update s.flag me false
      pc := update s.pc me .spin }
  | spin : s.pc me = .spin → s.turn = me.other → DekkerStep s me s
  | goOn : s.pc me = .spin → s.turn = me →
      DekkerStep s me { s with pc := update s.pc me .raiseFlag }
  | raiseFlag : s.pc me = .raiseFlag → DekkerStep s me { s with
      flag := update s.flag me true
      pc := update s.pc me .testFlag }
  | leave : s.pc me = .critical → DekkerStep s me { s with pc := update s.pc me .setTurn }
  | setTurn : s.pc me = .setTurn → DekkerStep s me { s with
      turn := me.other
      pc := update s.pc me .clearFlag }
  | clearFlag : s.pc me = .clearFlag → DekkerStep s me { s with
      flag := update s.flag me false
      pc := update s.pc me .idle }

theorem dekker_step {s s' : State} {t : Proc} (h : dekker s t = some s') : DekkerStep s t s' := by
  have hown : ¬ s.turn = t.other → s.turn = t := (Proc.eq_or_other t s.turn).resolve_right
  unfold dekker at h
  cases hpc : s.pc t with
  | testFlag =>
    simp only [hpc] at h
    split_ifs at h with hup
    · cases h
      exact .heldUp hpc hup
    · cases h
      exact .enter hpc (Bool.eq_false_iff.mpr hup)
  | testTurn =>
    simp only [hpc] at h
    split_ifs at h with hother
    · cases h
      exact .giveWay hpc hother
    · cases h
      exact .insist hpc (hown hother)
  | spin =>
    simp only [hpc] at h
    split_ifs at h with hother
    · cases h
      exact .spin hpc hother
    · cases h
      exact .goOn hpc (hown hother)
  | idle =>
    rw [hpc] at h
    cases h
    exact .ask hpc
  | setFlag =>
    rw [hpc] at h
    cases h
    exact .setFlag hpc
  | lowerFlag =>
    rw [hpc] at h
    cases h
    exact .lowerFlag hpc
  | raiseFlag =>
    rw [hpc] at h
    cases h
    exact .raiseFlag hpc
  | critical =>
    rw [hpc] at h
    cases h
    exact .leave hpc
  | setTurn =>
    rw [hpc] at h
    cases h
    exact .setTurn hpc
  | clearFlag =>
    rw [hpc] at h
    cases h
    exact .clearFlag hpc

/-! ### Mutual exclusion -/

/-- The program points at which a process has its flag up. -/
def Pc.Raised : Pc → Bool
  | .testFlag | .testTurn | .lowerFlag | .critical | .setTurn | .clearFlag => true
  | _ => false

/-- The program points after the test that lets in. -/
def Pc.Past : Pc → Bool
  | .critical | .setTurn | .clearFlag => true
  | _ => false

/-- The program points that a process gets to only by reading the other's flag
up. -/
def Pc.Held : Pc → Bool
  | .testTurn | .lowerFlag | .spin | .raiseFlag => true
  | _ => false

/-- The program points at which a process has not yet asked to enter. -/
def Pc.Out : Pc → Bool
  | .idle | .setFlag => true
  | _ => false

/-- The flags go with the program points, and only one process is past the
test.  A process that leaves gives `turn` away, so one that has been held up
finds `turn` its own once the other is out. -/
structure Inv (s : State) : Prop where
  flag : ∀ p, s.flag p = (s.pc p).Raised
  apart : ∀ p, (s.pc p).Past → ¬ (s.pc p.other).Past
  left : ∀ p, s.pc p = .clearFlag → s.turn = p.other
  held : ∀ p, (s.pc p).Held → (s.pc p.other).Out → s.turn = p

variable {s s' : State} {p q t : Proc}

theorem inv_init (h : processes.init s) : Inv s := by
  subst h
  exact ⟨fun _ => rfl, fun _ h => (by cases h), fun _ h => (by cases h), fun _ h => (by cases h)⟩

/-- A step leaves the flag and the program point of the other process. -/
theorem dekker_other (h : dekker s t = some s') :
    s'.flag t.other = s.flag t.other ∧ s'.pc t.other = s.pc t.other := by
  cases dekker_step h <;> simp

/-- A step leaves the mover's flag as its program point says. -/
theorem dekker_flag (h : dekker s t = some s') (hflag : s.flag t = (s.pc t).Raised) :
    s'.flag t = (s'.pc t).Raised := by
  cases dekker_step h with
  | setFlag hpc | lowerFlag hpc | raiseFlag hpc | clearFlag hpc => simp [Pc.Raised]
  | spin hpc _ => exact hflag
  | ask hpc | heldUp hpc _ | enter hpc _ | giveWay hpc _ | insist hpc _ | goOn hpc _ | leave hpc
  | setTurn hpc =>
    rw [hpc] at hflag
    simp [Pc.Raised, hflag]

/-- A process gets past the test when the other's flag is down. -/
theorem dekker_past (h : dekker s t = some s') (hpast : (s'.pc t).Past) :
    (s.pc t).Past ∨ s.flag t.other = false := by
  cases dekker_step h with
  | enter hpc hdown => exact .inr hdown
  | leave hpc | setTurn hpc =>
    rw [hpc]
    exact .inl rfl
  | spin hpc _ => exact .inl hpast
  | ask hpc | setFlag hpc | heldUp hpc _ | giveWay hpc _ | insist hpc _ | lowerFlag hpc | goOn hpc _
  | raiseFlag hpc | clearFlag hpc =>
    simp [Pc.Past] at hpast

/-- Only `setTurn` writes `turn`. -/
theorem dekker_turn (h : dekker s t = some s') :
    s.pc t = .setTurn ∧ s'.turn = t.other ∧ s'.pc t = .clearFlag ∨
      s'.turn = s.turn ∧ s'.pc t ≠ .clearFlag := by
  cases dekker_step h with
  | setTurn hpc => exact .inl ⟨hpc, rfl, by simp⟩
  | spin hpc _ => exact .inr ⟨rfl, by simp [hpc]⟩
  | ask hpc | setFlag hpc | heldUp hpc _ | enter hpc _ | giveWay hpc _ | insist hpc _
  | lowerFlag hpc | goOn hpc _ | raiseFlag hpc | leave hpc | clearFlag hpc =>
    exact .inr ⟨rfl, by simp⟩

/-- A process is held up when the other's flag is up. -/
theorem dekker_held (h : dekker s t = some s') (hheld : (s'.pc t).Held) :
    (s.pc t).Held ∨ s.flag t.other = true := by
  cases dekker_step h with
  | heldUp hpc hup => exact .inr hup
  | giveWay hpc _ | lowerFlag hpc | goOn hpc _ =>
    rw [hpc]
    exact .inl rfl
  | spin hpc _ => exact .inl hheld
  | ask hpc | setFlag hpc | enter hpc _ | insist hpc _ | raiseFlag hpc | leave hpc | setTurn hpc
  | clearFlag hpc =>
    simp [Pc.Held] at hheld

/-- A process comes out by lowering its flag at the end. -/
theorem dekker_out (h : dekker s t = some s') (hout : (s'.pc t).Out) :
    (s.pc t).Out ∨ s.pc t = .clearFlag := by
  cases dekker_step h with
  | clearFlag hpc => exact .inr hpc
  | ask hpc =>
    rw [hpc]
    exact .inl rfl
  | spin hpc _ => exact .inl hout
  | setFlag hpc | heldUp hpc _ | enter hpc _ | giveWay hpc _ | insist hpc _ | lowerFlag hpc
  | goOn hpc _ | raiseFlag hpc | leave hpc | setTurn hpc =>
    simp [Pc.Out] at hout

theorem Pc.raised_of_past {c : Pc} (h : c.Past) : c.Raised = true := by
  cases c <;> first | rfl | cases h

theorem Pc.not_raised_of_out {c : Pc} (h : c.Out) : c.Raised = false := by
  cases c <;> first | rfl | cases h

theorem Inv.step (hs : Inv s) (h : dekker s t = some s') : Inv s' := by
  obtain ⟨hflag', hpc'⟩ := dekker_other h
  have hpast : (s'.pc t).Past → ¬ (s.pc t.other).Past := fun ht hother => by
    rcases dekker_past h ht with hp | hdown
    · exact hs.apart t hp hother
    · rw [hs.flag, Pc.raised_of_past hother] at hdown
      cases hdown
  refine ⟨fun p => ?_, fun p hp => ?_, fun p hp => ?_, fun p hp hout => ?_⟩ <;>
    obtain rfl | rfl := Proc.eq_or_other t p
  · exact dekker_flag h (hs.flag p)
  · rw [hflag', hpc']
    exact hs.flag _
  · rw [hpc']
    exact hpast hp
  · rw [Proc.other_other]
    rw [hpc'] at hp
    exact fun ht => hpast ht hp
  · rcases dekker_turn h with ⟨-, hturn, -⟩ | ⟨-, hne⟩
    · exact hturn
    · exact absurd hp hne
  · rw [hpc'] at hp
    rcases dekker_turn h with ⟨hset, -, -⟩ | ⟨hturn, -⟩
    · -- the two cannot both be past the test
      exact absurd (by rw [hp]; rfl) (hs.apart t (by rw [hset]; rfl))
    · rw [hturn]
      exact hs.left _ hp
  · rw [hpc'] at hout
    rcases dekker_turn h with ⟨-, -, hset⟩ | ⟨hturn, -⟩
    · rw [hset] at hp
      cases hp
    rw [hturn]
    rcases dekker_held h hp with hheld | hup
    · exact hs.held p hheld hout
    · rw [hs.flag, Pc.not_raised_of_out hout] at hup
      cases hup
  · rw [Proc.other_other] at hout
    rw [hpc'] at hp
    rcases dekker_turn h with ⟨-, hturn, -⟩ | ⟨hturn, -⟩
    · exact hturn
    rw [hturn]
    rcases dekker_out h hout with hout' | hclear
    · exact hs.held _ hp (by rw [Proc.other_other]; exact hout')
    · exact hs.left t hclear

theorem inv (h : processes.Reachable s) : Inv s :=
  h.invariant (fun _ => inv_init) fun _ _ _ _ hs hstep => hs.step hstep

/-- **Mutual exclusion.** -/
theorem mutual_exclusion (h : processes.Reachable s) (p : Proc) (hp : s.pc p = .critical) :
    s.pc p.other ≠ .critical := fun hq =>
  (inv h).apart p (by rw [hp]; rfl) (by rw [hq]; rfl)

/-! ### Progress -/

/-- A step of a process in its entry or exit code. -/
def Moves (s s' : State) : Prop :=
  ∃ p, ((s.pc p).Entry ∨ (s.pc p).Exit) ∧ dekker s p = some s'

/-- Process `p` gets from `s` to `s'` alone, in its entry code. -/
structure Alone (p : Proc) (s s' : State) : Prop where
  moves : Relation.ReflTransGen Moves s s'
  turn : s'.turn = s.turn
  pc : s'.pc p.other = s.pc p.other

theorem Alone.refl : Alone p s s := ⟨.refl, rfl, rfl⟩

theorem Alone.head {u : State} (hc : (s.pc p).Entry) (h : dekker s p = some u)
    (hu : Alone p u s') : Alone p s s' := by
  have hturn : u.turn = s.turn := by
    rcases dekker_turn h with ⟨hset, -, -⟩ | ⟨hturn, -⟩
    · rw [hset] at hc
      exact absurd hc (by decide)
    · exact hturn
  exact ⟨.head ⟨p, .inl hc, h⟩ hu.moves, hu.turn.trans hturn,
    hu.pc.trans (dekker_other h).2⟩

/-- The invariant holds along the steps of entry and exit code. -/
theorem Inv.moves (hs : Inv s) (h : Relation.ReflTransGen Moves s s') : Inv s' := by
  induction h with
  | refl => exact hs
  | tail _ hm ih =>
    obtain ⟨p, -, hstep⟩ := hm
    exact ih.step hstep

/-- From the write that raises the flag, a process gets to its test. -/
theorem alone_raiseFlag (hc : s.pc p = .raiseFlag ∨ s.pc p = .setFlag) :
    ∃ s', Alone p s s' ∧ s'.pc p = .testFlag := by
  have hstep : dekker s p =
      some { s with flag := update s.flag p true, pc := update s.pc p .testFlag } := by
    rcases hc with hc | hc <;> simp [dekker, hc]
  exact ⟨_, .head (by rcases hc with hc | hc <;> rw [hc] <;> decide) hstep .refl, by simp⟩

/-- With `turn` its own, a process leaves the busy wait. -/
theorem alone_spin (hc : s.pc p = .spin) (hturn : s.turn = p) :
    ∃ s', Alone p s s' ∧ s'.pc p = .testFlag := by
  have hstep : dekker s p = some { s with pc := update s.pc p .raiseFlag } := by
    simp [dekker, hc, hturn]
  obtain ⟨s', hs', hpc⟩ := alone_raiseFlag
    (s := { s with pc := update s.pc p .raiseFlag }) (p := p) (.inl (by simp))
  exact ⟨s', .head (by rw [hc]; decide) hstep hs', hpc⟩

/-- A process that need not wait for `turn` gets to its test alone. -/
theorem exists_testFlag (hc : (s.pc p).Entry) (hturn : (s.pc p).Held → s.turn = p) :
    ∃ s', Alone p s s' ∧ s'.pc p = .testFlag := by
  rcases hc with hc | hc | hc | hc | hc | hc
  · exact alone_raiseFlag (.inr hc)
  · exact ⟨s, .refl, hc⟩
  · have hstep : dekker s p = some { s with pc := update s.pc p .testFlag } := by
      simp [dekker, hc, hturn (by rw [hc]; rfl)]
    exact ⟨_, .head (by rw [hc]; decide) hstep .refl, by simp⟩
  · have hstep : dekker s p =
        some { s with flag := update s.flag p false, pc := update s.pc p .spin } := by
      simp [dekker, hc]
    obtain ⟨s', hs', hpc⟩ := alone_spin
      (s := { s with flag := update s.flag p false, pc := update s.pc p .spin }) (p := p)
      (by simp) (hturn (by rw [hc]; rfl))
    exact ⟨s', .head (by rw [hc]; decide) hstep hs', hpc⟩
  · exact alone_spin hc (hturn (by rw [hc]; rfl))
  · exact alone_raiseFlag (.inl hc)

/-- The write that lowers the flag in the entry code. -/
theorem alone_lowerFlag (hc : s.pc p = .lowerFlag) :
    ∃ s', Alone p s s' ∧ (s'.pc p).Raised = false := by
  have hstep : dekker s p =
      some { s with flag := update s.flag p false, pc := update s.pc p .spin } := by
    simp [dekker, hc]
  exact ⟨_, .head (by rw [hc]; decide) hstep .refl, by simp [Pc.Raised]⟩

/-- With `turn` the other's, a process goes on to lower its flag. -/
theorem alone_testTurn (hc : s.pc p = .testTurn) (hturn : s.turn = p.other) :
    ∃ s', Alone p s s' ∧ (s'.pc p).Raised = false := by
  have hstep : dekker s p = some { s with pc := update s.pc p .lowerFlag } := by
    simp [dekker, hc, hturn]
  obtain ⟨s', hs', hpc⟩ := alone_lowerFlag
    (s := { s with pc := update s.pc p .lowerFlag }) (p := p) (by simp)
  exact ⟨s', .head (by rw [hc]; decide) hstep hs', hpc⟩

/-- A process whose turn it is not gives way alone: it lowers its flag, if it has
raised it. -/
theorem exists_lowered (hc : (s.pc p).Entry) (hturn : s.turn = p.other)
    (hup : s.flag p.other = true) :
    ∃ s', Alone p s s' ∧ (s'.pc p).Raised = false := by
  rcases hc with hc | hc | hc | hc | hc | hc
  · exact ⟨s, .refl, by rw [hc]; rfl⟩
  · have hstep : dekker s p = some { s with pc := update s.pc p .testTurn } := by
      simp [dekker, hc, hup]
    obtain ⟨s', hs', hpc⟩ := alone_testTurn
      (s := { s with pc := update s.pc p .testTurn }) (p := p) (by simp) hturn
    exact ⟨s', .head (by rw [hc]; decide) hstep hs', hpc⟩
  · exact alone_testTurn hc hturn
  · exact alone_lowerFlag hc
  · exact ⟨s, .refl, by rw [hc]; rfl⟩
  · exact ⟨s, .refl, by rw [hc]; rfl⟩

/-- A process at its test gets in when the other has its flag down. -/
theorem exists_critical (hs : Inv s) (hc : s.pc p = .testFlag)
    (hdown : (s.pc p.other).Raised = false) :
    ∃ s', Relation.ReflTransGen Moves s s' ∧ s'.pc p = .critical := by
  have hflag : s.flag p.other = false := by rw [hs.flag, hdown]
  have hstep : dekker s p = some { s with pc := update s.pc p .critical } := by
    simp [dekker, hc, hflag]
  exact ⟨_, .single ⟨p, .inl (by rw [hc]; decide), hstep⟩, by simp⟩

/-- With the other process out, a process gets in alone. -/
theorem exists_critical_of_out (hs : Inv s) (hc : (s.pc p).Entry) (hout : (s.pc p.other).Out) :
    ∃ s', Relation.ReflTransGen Moves s s' ∧ s'.pc p = .critical := by
  obtain ⟨u, hu, hpc⟩ := exists_testFlag hc fun hheld => hs.held p hheld hout
  obtain ⟨s', hs', hcrit⟩ := exists_critical (hs.moves hu.moves) hpc
    (by rw [hu.pc]; exact Pc.not_raised_of_out hout)
  exact ⟨s', hu.moves.trans hs', hcrit⟩

/-- With both in their entry code, the one whose turn it is gets in: it goes to its
test, the other gives way, and the test succeeds. -/
theorem exists_critical_of_turn (hs : Inv s) (hc : (s.pc p).Entry) (ho : (s.pc p.other).Entry)
    (hturn : s.turn = p) : ∃ s', Relation.ReflTransGen Moves s s' ∧ s'.pc p = .critical := by
  obtain ⟨u, hu, hpc⟩ := exists_testFlag hc fun _ => hturn
  have hinv := hs.moves hu.moves
  obtain ⟨v, hv, hdown⟩ := exists_lowered (p := p.other) (by rw [hu.pc]; exact ho)
    (by rw [Proc.other_other, hu.turn, hturn])
    (by rw [Proc.other_other, hinv.flag, hpc]; rfl)
  have hpc' : v.pc p = .testFlag := by
    have := hv.pc
    rw [Proc.other_other] at this
    rw [this, hpc]
  obtain ⟨s', hs', hcrit⟩ := exists_critical (hinv.moves hv.moves) hpc' hdown
  exact ⟨s', hu.moves.trans (hv.moves.trans hs'), hcrit⟩

/-- A process that leaves lowers its flag last. -/
theorem exists_idle_of_clearFlag (hc : s.pc p = .clearFlag) :
    ∃ s', Relation.ReflTransGen Moves s s' ∧ s'.pc p = .idle ∧ s'.pc p.other = s.pc p.other := by
  have hstep : dekker s p =
      some { s with flag := update s.flag p false, pc := update s.pc p .idle } := by
    simp [dekker, hc]
  exact ⟨_, .single ⟨p, .inr (by rw [hc]; decide), hstep⟩, by simp, by simp⟩

/-- A process in its exit code gets out alone, and leaves the other where it is. -/
theorem exists_idle (hc : (s.pc p).Exit) :
    ∃ s', Relation.ReflTransGen Moves s s' ∧ s'.pc p = .idle ∧ s'.pc p.other = s.pc p.other := by
  rcases hc with hc | hc
  · have hstep : dekker s p = some { s with turn := p.other, pc := update s.pc p .clearFlag } := by
      simp [dekker, hc]
    obtain ⟨s', hs', hpc, hother⟩ := exists_idle_of_clearFlag
      (s := { s with turn := p.other, pc := update s.pc p .clearFlag }) (p := p) (by simp)
    refine ⟨s', .head ⟨p, .inr (by rw [hc]; decide), hstep⟩ hs', hpc, ?_⟩
    rw [hother]
    simp
  · exact exists_idle_of_clearFlag hc

theorem Pc.cases (c : Pc) : c.Out ∨ c.Entry ∨ c.Exit ∨ c = .critical := by
  cases c <;> decide

/-- **Progress**: a process that wants to enter while nobody is inside is not kept
out for ever: steps of entry and exit code bring somebody in. -/
theorem exists_entry (h : processes.Reachable s) (hc : (s.pc p).Entry)
    (hnone : ∀ q, s.pc q ≠ .critical) :
    ∃ s', Relation.ReflTransGen Moves s s' ∧ ∃ q, s'.pc q = .critical := by
  have hs := inv h
  rcases Pc.cases (s.pc p.other) with hout | hentry | hexit | hcrit
  · obtain ⟨s', hs', hp⟩ := exists_critical_of_out hs hc hout
    exact ⟨s', hs', p, hp⟩
  · obtain hturn | hturn := Proc.eq_or_other p s.turn
    · obtain ⟨s', hs', hp⟩ := exists_critical_of_turn hs hc hentry hturn
      exact ⟨s', hs', p, hp⟩
    · obtain ⟨s', hs', hp⟩ := exists_critical_of_turn (p := p.other) hs hentry
        (by rw [Proc.other_other]; exact hc) hturn
      exact ⟨s', hs', p.other, hp⟩
  · obtain ⟨u, hu, hidle, hpc⟩ := exists_idle hexit
    rw [Proc.other_other] at hpc
    obtain ⟨s', hs', hp⟩ := exists_critical_of_out (p := p) (hs.moves hu) (by rw [hpc]; exact hc)
      (by rw [hidle]; rfl)
    exact ⟨s', hu.trans hs', p, hp⟩
  · exact absurd hcrit (hnone _)

/-- **Dekker's algorithm** keeps the two processes apart, and lets one in whenever
one wants to enter and nobody is inside. -/
theorem exclusion_and_progress :
    (∀ s, processes.Reachable s → ¬ ∃ p, s.pc p = .critical ∧ s.pc p.other = .critical) ∧
    ∀ s, processes.Reachable s → (∃ p, (s.pc p).Entry) → (∀ p, s.pc p ≠ .critical) →
      ∃ s', Relation.ReflTransGen Moves s s' ∧ ∃ p, s'.pc p = .critical := by
  refine ⟨?_, ?_⟩
  · rintro s hs ⟨p, hp, hother⟩
    exact mutual_exclusion hs p hp hother
  · rintro s hs ⟨p, hc⟩ hnone
    exact exists_entry hs hc hnone

end Dekker
