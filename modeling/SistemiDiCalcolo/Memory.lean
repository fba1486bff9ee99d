/-
Memory as a function from addresses.

A buffer is a memory whose addresses count from its first element, so that an
access out of its bounds has a meaning and can be talked about.

* `load`, `store` — a range read, and a list written from an address on;
* `load_store_append` — a store right after a range extends what the range holds;
* `cString` — the zero-terminated text in the first elements of a buffer.
-/
import Mathlib.Data.List.TakeWhile
import Mathlib.Data.List.Range
import Mathlib.Algebra.Group.Nat.Defs
import Mathlib.Tactic.Common

/-- What each address holds. -/
abbrev Memory (α : Type*) := ℕ → α

namespace Memory

variable {α : Type*} {m : Memory α} {a b n k i : ℕ} {xs ys : List α}

/-- The `n` elements from address `a` on. -/
def load (m : Memory α) (a n : ℕ) : List α := (List.range n).map fun k => m (a + k)

/-- Write a list from address `a` on. -/
def store (m : Memory α) (a : ℕ) (xs : List α) : Memory α := fun i =>
  if a ≤ i then (xs[i - a]?).getD (m i) else m i

@[simp] theorem length_load : (m.load a n).length = n := by
  rw [load, List.length_map, List.length_range]

@[simp] theorem load_zero : m.load a 0 = [] := rfl

theorem load_one : m.load a 1 = [m a] := rfl

theorem load_add : m.load a (n + k) = m.load a n ++ m.load (a + n) k := by
  simp only [load, List.range_add, List.map_append, List.map_map]
  congr 1
  refine List.map_congr_left fun j _ => ?_
  rw [Function.comp_apply, Nat.add_assoc]

/-- What a range holds depends on its addresses only. -/
theorem load_congr {m' : Memory α} (h : ∀ i, a ≤ i → i < a + n → m i = m' i) :
    m.load a n = m'.load a n := by
  refine List.map_congr_left fun k hk => ?_
  rw [List.mem_range] at hk
  exact h _ (Nat.le_add_right a k) (Nat.add_lt_add_left hk a)

theorem take_load (h : k ≤ n) : (m.load a n).take k = m.load a k := by
  obtain ⟨j, rfl⟩ := Nat.exists_eq_add_of_le h
  rw [load_add, List.take_left' length_load]

/-- What a range begins with is what its first addresses hold. -/
theorem load_of_prefix (h : xs <+: m.load a n) : m.load a xs.length = xs := by
  have hle : xs.length ≤ n := by simpa only [length_load] using h.length_le
  rw [← take_load hle, ← List.prefix_iff_eq_take.mp h]

/-- A list in memory, cell by cell. -/
theorem eq_getElem_of_load (h : m.load a xs.length = xs) (hk : k < xs.length) :
    m (a + k) = xs[k] := by
  have hget : (m.load a xs.length)[k]? = xs[k]? := by rw [h]
  rw [load, List.getElem?_map, List.getElem?_range hk, List.getElem?_eq_getElem hk] at hget
  exact Option.some.inj hget

theorem store_of_lt (h : i < a) : m.store a xs i = m i := by
  rw [store, if_neg (Nat.not_le.mpr h)]

theorem store_of_le (h : a + xs.length ≤ i) : m.store a xs i = m i := by
  rw [store, if_pos (by omega), List.getElem?_eq_none (by omega), Option.getD_none]

theorem store_add (h : k < xs.length) : m.store a xs (a + k) = xs[k] := by
  rw [store, if_pos (Nat.le_add_right a k), Nat.add_sub_cancel_left, List.getElem?_eq_getElem h,
    Option.getD_some]

/-- A range filled with one value. -/
theorem store_replicate {x : α} :
    m.store a (List.replicate n x) i = if a ≤ i ∧ i < a + n then x else m i := by
  by_cases ha : a ≤ i
  · by_cases hi : i < a + n
    · obtain ⟨k, rfl⟩ := Nat.exists_eq_add_of_le ha
      rw [if_pos ⟨ha, hi⟩, store_add (by rw [List.length_replicate]; omega),
        List.getElem_replicate]
    · rw [if_neg fun h => hi h.2, store_of_le (by rw [List.length_replicate]; omega)]
  · rw [if_neg fun h => ha h.1, store_of_lt (Nat.lt_of_not_le ha)]

/-- A range is read back as it was written. -/
theorem load_store : (m.store a xs).load a xs.length = xs := by
  refine List.ext_getElem length_load fun k _ hk => ?_
  simp only [load, List.getElem_map, List.getElem_range]
  exact store_add hk

/-- A list is stored as its parts are, one after the other. -/
theorem store_append : m.store a (xs ++ ys) = (m.store a xs).store (a + xs.length) ys := by
  funext i
  rcases Nat.lt_or_ge i a with hi | hi
  · rw [store_of_lt hi, store_of_lt (hi.trans_le (Nat.le_add_right _ _)), store_of_lt hi]
  · obtain ⟨k, rfl⟩ := Nat.exists_eq_add_of_le hi
    rcases Nat.lt_or_ge k xs.length with hk | hk
    · rw [store_of_lt (Nat.add_lt_add_left hk a), store_add hk,
        store_add (by rw [List.length_append]; omega), List.getElem_append_left hk]
    · obtain ⟨j, rfl⟩ := Nat.exists_eq_add_of_le hk
      rw [← Nat.add_assoc]
      rcases Nat.lt_or_ge j ys.length with hj | hj
      · rw [store_add hj, Nat.add_assoc, store_add (by rw [List.length_append]; omega),
          List.getElem_append_right (Nat.le_add_right _ _)]
        simp only [Nat.add_sub_cancel_left]
      · have hwhole : a + (xs ++ ys).length ≤ a + xs.length + j := by
          rw [List.length_append]
          omega
        rw [store_of_le hwhole, store_of_le (Nat.add_le_add_left hj _),
          store_of_le (Nat.le_add_right _ _)]

/-- What a stored list begins with. -/
theorem load_store_left : (m.store a (xs ++ ys)).load a xs.length = xs := by
  have hstore : (m.store a (xs ++ ys)).load a (xs ++ ys).length = xs ++ ys := load_store
  rw [List.length_append, load_add] at hstore
  exact List.append_inj_left hstore length_load

theorem store_self {x : α} : m.store a [x] a = x := by
  have hlen : 0 < [x].length := Nat.zero_lt_one
  exact store_add hlen

theorem store_eq_of_ne {x : α} (h : i ≠ a) : m.store a [x] i = m i := by
  rcases Nat.lt_or_gt_of_ne h with hlt | hlt
  · exact store_of_lt hlt
  · exact store_of_le hlt

/-- The last element of a stored list. -/
theorem store_concat {x : α} : m.store 0 (xs ++ [x]) xs.length = x := by
  have hlen : xs.length < (xs ++ [x]).length := by
    rw [List.length_append]
    exact Nat.lt_succ_self _
  have hstore := store_add (m := m) (a := 0) hlen
  rwa [Nat.zero_add, List.getElem_concat_length rfl] at hstore

/-- A store leaves what lies below it alone. -/
theorem load_store_of_le (h : a + n ≤ b) : (m.store b xs).load a n = m.load a n :=
  load_congr fun _ _ hi => store_of_lt (lt_of_lt_of_le hi h)

/-- A store right after a range extends what the range holds. -/
theorem load_store_append (hn : a + n = b) (hk : xs.length = k) :
    (m.store b xs).load a (n + k) = m.load a n ++ xs := by
  subst hn hk
  rw [load_add, load_store_of_le le_rfl, load_store]

/-- A store of one element after the end of a range leaves the range alone. -/
theorem load_store_end : (m.store n xs).load 0 n = m.load 0 n :=
  load_store_of_le (Nat.zero_add n).le

/-- Where a zero is after a store: in what has been stored, or behind it where one was before. -/
theorem store_eq_zero_iff [Zero α] :
    m.store 0 xs i = 0 ↔ xs[i]? = some 0 ∨ xs.length ≤ i ∧ m i = 0 := by
  rcases Nat.lt_or_ge i xs.length with hi | hi
  · have hcell : m.store 0 xs i = xs[i] := by
      have hstore := store_add (m := m) (a := 0) hi
      rwa [Nat.zero_add] at hstore
    rw [hcell, List.getElem?_eq_getElem hi, Option.some_inj]
    exact (or_iff_left fun h => Nat.not_le.mpr hi h.1).symm
  · rw [store_of_le (by rwa [Nat.zero_add]), List.getElem?_eq_none hi, and_iff_right hi]
    exact (or_iff_right (Option.some_ne_none 0).symm).symm

section CString

variable [Zero α] [DecidableEq α]

/-- The text in a buffer of `size` elements, up to the first zero. -/
def cString (size : ℕ) (m : Memory α) : List α := (m.load 0 size).takeWhile (· ≠ 0)

/-- `strlen`. -/
def strlen (size : ℕ) (m : Memory α) : ℕ := (cString size m).length

theorem strlen_le {size : ℕ} : strlen size m ≤ size := by
  rw [strlen, cString]
  exact (List.takeWhile_prefix _).length_le.trans length_load.le

/-- A buffer that begins with `xs` and a zero. -/
theorem cString_eq_takeWhile {size : ℕ} (hn : n < size) (hxs : m.load 0 n = xs) (hzero : m n = 0) :
    cString size m = xs.takeWhile (· ≠ 0) := by
  obtain ⟨k, rfl⟩ := Nat.exists_eq_add_of_lt hn
  rw [cString, Nat.add_assoc, load_add, Nat.add_comm k 1, load_add, load_one, hxs, Nat.zero_add,
    hzero]
  by_cases h : ∀ x ∈ xs, (decide (x ≠ 0)) = true
  · rw [List.takeWhile_append_of_pos h, List.takeWhile_eq_self_iff.mpr h]
    simp
  · rw [List.takeWhile_append, if_neg]
    intro hlen
    exact h (List.takeWhile_eq_self_iff.mp ((List.takeWhile_prefix _).eq_of_length hlen))

theorem cString_eq {size : ℕ} (hn : n < size) (hxs : m.load 0 n = xs) (hzero : m n = 0)
    (hne : 0 ∉ xs) : cString size m = xs := by
  rw [cString_eq_takeWhile hn hxs hzero, List.takeWhile_eq_self_iff]
  intro x hx
  exact decide_eq_true fun h => hne (h ▸ hx)

/-- A list stored with a zero after it. -/
theorem cString_store {size : ℕ} (h : xs.length < size) :
    cString size (m.store 0 (xs ++ [0])) = xs.takeWhile (· ≠ 0) :=
  cString_eq_takeWhile h load_store_left store_concat

/-- A text stored with its terminator. -/
theorem cString_store_of_notMem {size : ℕ} (h : xs.length < size) (hne : 0 ∉ xs) :
    cString size (m.store 0 (xs ++ [0])) = xs := by
  rw [cString_store h, List.takeWhile_eq_self_iff]
  intro x hx
  exact decide_eq_true fun hzero => hne (hzero ▸ hx)

theorem zero_notMem_cString {size : ℕ} : 0 ∉ cString size m := by
  intro h
  simpa using List.mem_takeWhile_imp h

/-- The text is what the buffer begins with. -/
theorem load_strlen {size : ℕ} : m.load 0 (strlen size m) = cString size m :=
  load_of_prefix (List.takeWhile_prefix _)

/-- A buffer with a zero in it holds a text exactly if it begins with the text and a zero. -/
theorem cString_eq_iff {size : ℕ} (hne : 0 ∉ xs) :
    strlen size m < size ∧ cString size m = xs ↔
      xs.length < size ∧ m.load 0 xs.length = xs ∧ m xs.length = 0 := by
  constructor
  · rintro ⟨hlt, rfl⟩
    refine ⟨hlt, load_strlen, by_contra fun hnonzero => ?_⟩
    -- the text would go on
    have hall : ∀ x ∈ m.load 0 (strlen size m + 1), decide (x ≠ 0) = true := by
      intro x hx
      rw [load_add, load_strlen, load_one, Nat.zero_add, List.mem_append,
        List.mem_singleton] at hx
      rcases hx with htext | rfl
      · exact decide_eq_true fun h => zero_notMem_cString (h ▸ htext)
      · exact decide_eq_true hnonzero
    obtain ⟨k, hk⟩ := Nat.exists_eq_add_of_le hlt
    have hlonger : (m.load 0 (strlen size m + 1)).length ≤ strlen size m := by
      conv_rhs => rw [strlen, cString, hk, load_add, List.takeWhile_append_of_pos hall]
      rw [List.length_append]
      exact Nat.le_add_right _ _
    rw [length_load] at hlonger
    exact Nat.not_succ_le_self _ hlonger
  · rintro ⟨hlt, hload, hzero⟩
    have htext : cString size m = xs := cString_eq hlt hload hzero hne
    refine ⟨?_, htext⟩
    rw [strlen, htext]
    exact hlt

end CString

end Memory
