/-
A stream cut in lines.

`takeLine sep n` is what is read of a stream up to and including a separator, but at
most `n` elements; `pieces sep n` is the whole stream cut in this way.

* `Unbroken` — a separator can only come last;
* `flatten_pieces` — the pieces make the stream;
* `pieces_flatten` — the pieces of a stream of lines are the lines.
-/
import Mathlib.Data.List.Basic
import Mathlib.Data.List.Infix
import Mathlib.Tactic.Common

namespace Lines

variable {α : Type*} {sep : α} {n : ℕ} {xs ys line : List α}

/-- Nothing comes after a separator. -/
def Unbroken (sep : α) (xs : List α) : Prop := ∀ as bs, xs = as ++ sep :: bs → bs = []

/-- What begins an unbroken list is unbroken. -/
theorem Unbroken.of_prefix (h : Unbroken sep ys) (hxs : xs <+: ys) : Unbroken sep xs := by
  rintro as bs rfl
  obtain ⟨cs, rfl⟩ := hxs
  have hnil := h as (bs ++ cs) (by rw [List.append_assoc, List.cons_append])
  exact (List.append_eq_nil_iff.mp hnil).1

/-- A part that has the separator is the whole. -/
theorem Unbroken.eq_of_prefix (h : Unbroken sep ys) (hxs : xs <+: ys) (hmem : sep ∈ xs) :
    xs = ys := by
  obtain ⟨as, bs, rfl⟩ := List.append_of_mem hmem
  obtain ⟨cs, rfl⟩ := hxs
  have hnil := h as (bs ++ cs) (by rw [List.append_assoc, List.cons_append])
  rw [(List.append_eq_nil_iff.mp hnil).2, List.append_nil]

/-- A line: at most `n` elements, of which the last is the only separator. -/
structure IsLine (sep : α) (n : ℕ) (line : List α) : Prop where
  unbroken : Unbroken sep line
  mem : sep ∈ line
  length_le : line.length ≤ n

/-- A line is a body without separator, and the separator. -/
theorem IsLine.exists_body (h : IsLine sep n line) : ∃ body, line = body ++ [sep] ∧ sep ∉ body := by
  obtain ⟨body, rest, rfl⟩ := List.append_of_mem h.mem
  obtain rfl := h.unbroken body rest rfl
  refine ⟨body, rfl, fun hsep => ?_⟩
  obtain ⟨as, bs, rfl⟩ := List.append_of_mem hsep
  have hnil := h.unbroken as (bs ++ [sep]) (by rw [List.append_assoc, List.cons_append])
  exact absurd hnil (List.concat_ne_nil sep bs)

theorem isLine_append {body : List α} (hbody : sep ∉ body) (hlen : body.length < n) :
    IsLine sep n (body ++ [sep]) := by
  refine ⟨fun as bs h => ?_, List.mem_append_right _ List.mem_cons_self, ?_⟩
  · rcases List.append_eq_append_iff.mp h with ⟨cs, rfl, hcs⟩ | ⟨cs, rfl, hcs⟩
    · cases cs with
      | nil => exact (List.cons.inj hcs).2.symm
      | cons c cs => simp at hcs
    · cases cs with
      | nil => exact (List.cons.inj hcs).2
      | cons c cs =>
        rw [List.cons_append] at hcs
        exact absurd (List.mem_append_right as ((List.cons.inj hcs).1 ▸ List.mem_cons_self)) hbody
  · rw [List.length_append]
    exact hlen

variable [DecidableEq α]

/-- Up to a separator, or `n` elements, or the end. -/
def takeLine (sep : α) : ℕ → List α → List α
  | 0, _ => []
  | _ + 1, [] => []
  | n + 1, x :: xs => if x = sep then [x] else x :: takeLine sep n xs

theorem takeLine_prefix : takeLine sep n xs <+: xs := by
  induction n generalizing xs with
  | zero => exact List.nil_prefix
  | succ n ih =>
    cases xs with
    | nil => exact List.nil_prefix
    | cons x xs =>
      rw [takeLine]
      split
      · exact List.cons_prefix_cons.mpr ⟨rfl, List.nil_prefix⟩
      · exact List.cons_prefix_cons.mpr ⟨rfl, ih⟩

theorem length_takeLine_le : (takeLine sep n xs).length ≤ n := by
  induction n generalizing xs with
  | zero => exact le_rfl
  | succ n ih =>
    cases xs with
    | nil => exact Nat.zero_le _
    | cons x xs =>
      rw [takeLine]
      split
      · exact Nat.succ_le_succ (Nat.zero_le n)
      · exact Nat.succ_le_succ ih

theorem takeLine_ne_nil (hn : 0 < n) (hxs : xs ≠ []) : takeLine sep n xs ≠ [] := by
  obtain ⟨k, rfl⟩ := Nat.exists_eq_succ_of_ne_zero hn.ne'
  cases xs with
  | nil => exact absurd rfl hxs
  | cons x xs =>
    rw [takeLine]
    split <;> exact List.cons_ne_nil _ _

theorem unbroken_takeLine : Unbroken sep (takeLine sep n xs) := by
  induction n generalizing xs with
  | zero =>
    intro as bs h
    exact absurd h.symm (by simp [takeLine])
  | succ n ih =>
    cases xs with
    | nil =>
      intro as bs h
      exact absurd h.symm (by simp [takeLine])
    | cons x xs =>
      intro as bs h
      rw [takeLine] at h
      split at h
      · cases as with
        | nil => exact (List.cons.inj h).2.symm
        | cons a as => simp at h
      · next hx =>
        -- the separator is further on
        cases as with
        | nil => exact absurd (List.cons.inj h).1 hx
        | cons a as => exact ih as bs (List.cons.inj h).2

/-- A whole line at the head of a stream is taken. -/
theorem takeLine_append (h : IsLine sep n line) : takeLine sep n (line ++ xs) = line := by
  obtain ⟨body, rfl, hbody⟩ := h.exists_body
  have hlen := h.length_le
  clear h
  induction body generalizing n with
  | nil =>
    cases n with
    | zero => simp at hlen
    | succ n => simp [takeLine]
  | cons x body ih =>
    have hx : x ≠ sep := fun heq => hbody (heq ▸ List.mem_cons_self)
    cases n with
    | zero => simp at hlen
    | succ n =>
      rw [List.cons_append, List.cons_append, takeLine, if_neg hx]
      rw [ih (fun hmem => hbody (List.mem_cons_of_mem x hmem)) (Nat.le_of_succ_le_succ hlen)]

/-- The stream, cut. -/
def pieces (sep : α) (n : ℕ) (xs : List α) : List (List α) :=
  if _h : 0 < n ∧ xs ≠ [] then
    takeLine sep n xs :: pieces sep n (xs.drop (takeLine sep n xs).length)
  else []
termination_by xs.length
decreasing_by
  have hne : takeLine sep n xs ≠ [] := takeLine_ne_nil _h.1 _h.2
  have hpos := List.length_pos_iff.mpr hne
  have hxs := List.length_pos_iff.mpr _h.2
  rw [List.length_drop]
  omega

@[simp] theorem pieces_nil : pieces sep n [] = [] := by
  rw [pieces, dif_neg fun h => h.2 rfl]

theorem pieces_of_ne_nil (hn : 0 < n) (hxs : xs ≠ []) : pieces sep n xs =
    takeLine sep n xs :: pieces sep n (xs.drop (takeLine sep n xs).length) := by
  rw [pieces, dif_pos ⟨hn, hxs⟩]

/-- Whatever the stream, its pieces make it. -/
theorem flatten_pieces (hn : 0 < n) : (pieces sep n xs).flatten = xs := by
  induction hlen : xs.length using Nat.strongRecOn generalizing xs with
  | _ k ih =>
    by_cases hxs : xs = []
    · rw [hxs, pieces_nil, List.flatten_nil]
    · have hpos := List.length_pos_iff.mpr (takeLine_ne_nil hn hxs : takeLine sep n xs ≠ [])
      have hrest : (xs.drop (takeLine sep n xs).length).length < k := by
        rw [List.length_drop, ← hlen]
        exact Nat.sub_lt (List.length_pos_iff.mpr hxs) hpos
      rw [pieces_of_ne_nil hn hxs, List.flatten_cons, ih _ hrest rfl]
      exact List.prefix_iff_eq_append.mp takeLine_prefix

/-- **The pieces of a stream of lines are the lines.** -/
theorem pieces_flatten {lines : List (List α)} (h : ∀ line ∈ lines, IsLine sep n line) :
    pieces sep n lines.flatten = lines := by
  induction lines with
  | nil => exact pieces_nil
  | cons line lines ih =>
    have hline := h line List.mem_cons_self
    have hpos := List.length_pos_of_mem hline.mem
    have hne : line ++ lines.flatten ≠ [] := by
      intro hnil
      rw [(List.append_eq_nil_iff.mp hnil).1] at hpos
      exact absurd hpos (Nat.lt_irrefl 0)
    rw [List.flatten_cons, pieces_of_ne_nil (hpos.trans_le hline.length_le) hne,
      takeLine_append hline, List.drop_left,
      ih fun line' hline' => h line' (List.mem_cons_of_mem line hline')]

end Lines
