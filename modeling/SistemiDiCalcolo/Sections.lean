/-
Sections under a lock in which blocks are moved piece by piece.

Any number of agents share a lock.  An agent enters a section, adds pieces to
the current block, finishes the block and leaves.  `ok` tells which lengths a
finished block may have.

* `Sections.Step` — the steps, `Sections.Inv` — the lock and the blocks;
* `getElem?_of_flatten_eq` — two ways to cut one stream in blocks of the same length
  give the same blocks.
-/
import SistemiDiCalcolo.Tally
import Mathlib.Data.List.Flatten
import Mathlib.Tactic.Common

open Function (update)

/-- Where an agent is, with the sections it has finished; in a section, with the
number of elements it has moved in it. -/
inductive Sections.Phase
  | out (count : ℕ)
  | moving (count moved : ℕ)
  | leaving (count : ℕ)

/-- The lock, the agents, the block of the section under way and those of the
sections that are over, in order. -/
structure Sections (ι α : Type*) where
  lock : ℕ
  phase : ι → Sections.Phase
  current : List α
  finished : List (List α)

namespace Sections

variable {ι α : Type*} [DecidableEq ι] {ok : ℕ → Prop} {s s' : Sections ι α}

/-- 1 from the step that takes the lock to the one that gives it back. -/
@[simp] def Phase.inside : Phase → ℕ
  | .out _ => 0
  | .moving _ _ | .leaving _ => 1

/-- The elements moved in the section under way. -/
@[simp] def Phase.moved : Phase → ℕ
  | .moving _ n => n
  | .out _ | .leaving _ => 0

@[simp] def Phase.count : Phase → ℕ
  | .out c | .moving c _ | .leaving c => c

/-- The steps: take the lock, move a piece, finish the block, give the lock back. -/
inductive Step (ok : ℕ → Prop) (s : Sections ι α) : Sections ι α → Prop
  | enter (i : ι) (c : ℕ) : s.phase i = .out c → 0 < s.lock →
      Step ok s { s with lock := s.lock - 1, phase := update s.phase i (.moving c 0) }
  | move (i : ι) (c n : ℕ) (xs : List α) : s.phase i = .moving c n →
      Step ok s { s with
        current := s.current ++ xs
        phase := update s.phase i (.moving c (n + xs.length)) }
  | finish (i : ι) (c n : ℕ) : s.phase i = .moving c n → ok n →
      Step ok s { s with
        finished := s.finished ++ [s.current]
        current := []
        phase := update s.phase i (.leaving (c + 1)) }
  | leave (i : ι) (c : ℕ) : s.phase i = .leaving c →
      Step ok s { s with lock := s.lock + 1, phase := update s.phase i (.out c) }

theorem Step.of_eq {u : Sections ι α} (h : Step ok s u) (heq : s' = u) : Step ok s s' := heq ▸ h

variable [Fintype ι]

/-- The lock is free or with one agent, the current block is what the agent in the
section has moved, and the finished ones have lengths that are `ok`. -/
structure Inv (ok : ℕ → Prop) (s : Sections ι α) : Prop where
  lock : s.lock + tally Phase.inside s.phase = 1
  current : s.current.length = tally Phase.moved s.phase
  finished : ∀ xs ∈ s.finished, ok xs.length
  count : s.finished.length = tally Phase.count s.phase

/-- The agent in a section is alone in it. -/
theorem Inv.moved_eq (hs : Inv ok s) {i : ι} (hi : (s.phase i).inside = 1) :
    s.current.length = (s.phase i).moved := by
  have hlock := hs.lock
  rw [hs.current]
  refine tally_eq_of_sole (h := Phase.inside) ?_ (by omega) hi
  intro p hp
  cases p <;> simp_all

/-- The block under way is that of one agent. -/
theorem Inv.exists_current (hs : Inv ok s) (hpos : 0 < s.current.length) :
    ∃ i, s.current.length = (s.phase i).moved := by
  have hne : tally Phase.moved s.phase ≠ 0 := by
    have := hs.current
    omega
  obtain ⟨i, hi⟩ := not_forall.mp fun hz => hne (tally_eq_zero.mpr hz)
  refine ⟨i, hs.moved_eq ?_⟩
  cases hphase : s.phase i with
  | moving c n => rfl
  | out c | leaving c =>
    rw [hphase] at hi
    exact absurd rfl hi

/-- What one agent's move does to the books. -/
theorem Inv.of_update (hs : Inv ok s) {i : ι} {p q : Phase} (hi : s.phase i = p)
    (hphase : s'.phase = update s.phase i q) (hlock : s'.lock + q.inside = s.lock + p.inside)
    (hcurrent : s'.current.length + p.moved = s.current.length + q.moved)
    (hfinished : ∀ xs ∈ s'.finished, ok xs.length)
    (hcount : s'.finished.length + p.count = s.finished.length + q.count) : Inv ok s' := by
  subst hi
  have hinside := tally_update Phase.inside s.phase i q
  have hmoved := tally_update Phase.moved s.phase i q
  have hcounted := tally_update Phase.count s.phase i q
  have hlock₀ := hs.lock
  have hcurrent₀ := hs.current
  have hcount₀ := hs.count
  refine ⟨?_, ?_, hfinished, ?_⟩ <;> rw [hphase] <;> omega

/-- **Every step keeps the books.** -/
theorem Inv.step (hs : Inv ok s) (h : Step ok s s') : Inv ok s' := by
  cases h with
  | enter i c hi hpos =>
    refine hs.of_update hi rfl ?_ rfl hs.finished rfl
    simp only [Phase.inside]
    omega
  | move i c n xs hi =>
    refine hs.of_update hi rfl rfl ?_ hs.finished rfl
    rw [List.length_append, Phase.moved, Phase.moved]
    omega
  | finish i c n hi hn =>
    have hlen := hs.moved_eq (i := i) (by rw [hi]; rfl)
    rw [hi, Phase.moved] at hlen
    refine hs.of_update hi rfl rfl ?_ ?_ ?_
    · rw [hlen, Phase.moved, Phase.moved, List.length_nil, Nat.zero_add, Nat.add_zero]
    · intro xs hxs
      rcases List.mem_append.mp hxs with hold | hnew
      · exact hs.finished xs hold
      · rw [List.mem_singleton.mp hnew, hlen]
        exact hn
    · rw [List.length_append, List.length_singleton, Phase.count, Phase.count]
      omega
  | leave i c hi => exact hs.of_update hi rfl rfl rfl hs.finished rfl

/-- Blocks of length `L` begin at the multiples of `L`. -/
theorem length_flatten_take {L : ℕ} {blocks : List (List α)} (h : ∀ xs ∈ blocks, xs.length = L)
    {k : ℕ} (hk : k ≤ blocks.length) : (blocks.take k).flatten.length = k * L := by
  rw [List.length_flatten, List.eq_replicate_of_mem (a := L) (l := (blocks.take k).map _)]
  · rw [List.sum_replicate_nat, List.length_map, List.length_take, Nat.min_eq_left hk]
  · intro n hn
    obtain ⟨xs, hxs, rfl⟩ := List.mem_map.mp hn
    exact h xs (List.mem_of_mem_take hxs)

omit [DecidableEq ι] in
/-- What has been moved in all sections, agent by agent. -/
theorem Inv.volume {L : ℕ} (hs : Inv (· = L) s) : s.finished.flatten.length + s.current.length
    = tally (fun p : Phase => p.count * L + p.moved) s.phase := by
  have hflatten : s.finished.flatten.length = s.finished.length * L := by
    have := length_flatten_take hs.finished le_rfl
    rwa [List.take_length] at this
  rw [hflatten, hs.count, hs.current]
  simp only [tally, Finset.sum_add_distrib, Finset.sum_mul]

/-- **The blocks of one stream**: if the blocks that are over all have length `L`, and
what has been taken out is the beginning of what has been put in, then the blocks
taken out are the blocks put in. -/
theorem getElem?_of_flatten_eq {L : ℕ} (hL : 0 < L) {taken written : List (List α)}
    {rest current : List α} (htaken : ∀ xs ∈ taken, xs.length = L)
    (hwritten : ∀ xs ∈ written, xs.length = L) (hcurrent : current.length ≤ L)
    (hflow : written.flatten ++ current = taken.flatten ++ rest) {k : ℕ} {xs : List α}
    (hk : taken[k]? = some xs) : (written ++ [current])[k]? = some xs := by
  induction taken generalizing written k with
  | nil => cases hk
  | cons t taken ih =>
    have ht : t.length = L := htaken t List.mem_cons_self
    cases written with
    | nil =>
      -- the block under way is the only one, so it is complete and it is `t`
      have hlen := congrArg List.length hflow
      simp only [List.flatten_nil, List.nil_append, List.flatten_cons, List.length_append] at hlen
      have hnil : taken = [] := by
        cases taken with
        | nil => rfl
        | cons u us =>
          have hu : u.length = L := htaken u (by simp)
          rw [List.flatten_cons, List.length_append] at hlen
          omega
      subst hnil
      have hrest : rest = [] := List.length_eq_zero_iff.mp (by omega)
      subst hrest
      have hcur : current = t := by simpa using hflow
      cases k with
      | zero => simpa [hcur] using hk
      | succ k => cases hk
    | cons w written =>
      have hw : w.length = L := hwritten w List.mem_cons_self
      rw [List.flatten_cons, List.flatten_cons, List.append_assoc, List.append_assoc] at hflow
      obtain ⟨rfl, hflow'⟩ := List.append_inj hflow (hw.trans ht.symm)
      cases k with
      | zero => exact hk
      | succ k =>
        rw [List.getElem?_cons_succ] at hk
        rw [List.cons_append, List.getElem?_cons_succ]
        exact ih (fun xs hxs => htaken xs (List.mem_cons_of_mem w hxs))
          (fun xs hxs => hwritten xs (List.mem_cons_of_mem w hxs)) hflow' hk

end Sections
