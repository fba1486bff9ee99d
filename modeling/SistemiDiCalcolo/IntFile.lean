/-
Files of `int`s under `fseek`, `fread` and `fwrite`.

* `sizeofInts`, `fseek`, `fread`, `fwrite` — an offset in a file and one `int` there;
* `fread_ints`, `fwrite_ints` — on a file that holds a list of `int`s, they get and set
  one of them.
-/
import SistemiDiCalcolo.Descriptor

open AccessLog (Byte intBytes readInts)

namespace IntFile

/-- `int offset = n*sizeof(int)`. -/
def sizeofInts (n : CInt) : CInt := (toSize n * 4).setWidth 32

/-- `fseek(fp, offset, SEEK_SET)`: the position, or an error. -/
def fseek (offset : CInt) : Option ℕ := if 0 ≤ offset.toInt then some offset.toNat else none

/-- `fread(&v, sizeof(int), 1, fp)`: the `int` at the position, if there is a whole one. -/
def fread (bytes : List Byte) (pos : ℕ) : Option CInt := (readInts (bytes.drop pos)).head?

/-- `fwrite(&v, sizeof(int), 1, fp)`: over what is there, after a gap of zeros if the
position lies past the end. -/
def fwrite (bytes : List Byte) (pos : ℕ) (v : CInt) : List Byte :=
  bytes.take pos ++ List.replicate (pos - bytes.length) 0 ++ intBytes v ++ bytes.drop (pos + 4)

theorem fseek_sizeofInts {n : CInt} {k : ℕ} (hn : n = BitVec.ofNat 32 k) (hk : 4 * k < 2 ^ 31) :
    fseek (sizeofInts n) = some (4 * k) := by
  have hnat : (sizeofInts n).toNat = 4 * k := by
    rw [sizeofInts, hn, toSize_ofNat (by omega), BitVec.toNat_setWidth, BitVec.toNat_mul,
      BitVec.toNat_ofNat]
    show k % 2 ^ 64 * 4 % 2 ^ 64 % 2 ^ 32 = 4 * k
    omega
  have hint : (sizeofInts n).toInt = (4 * k : ℕ) := by
    rw [BitVec.toInt_eq_toNat_cond, hnat, if_pos (by omega)]
  rw [fseek, hint, if_pos (Int.natCast_nonneg _), hnat]

/-- A position that a byte count leads to is that of an `int`, and not a large one. -/
theorem fseek_sizeofInts_eq_some {n : CInt} {pos : ℕ} (h : fseek (sizeofInts n) = some pos) :
    ∃ k, pos = 4 * k ∧ 4 * k < 2 ^ 31 := by
  rw [fseek] at h
  split at h
  · rename_i hpos
    obtain rfl := Option.some.inj h
    have hlt : (sizeofInts n).toNat < 2 ^ 31 := by
      have hcond := BitVec.toInt_eq_toNat_cond (sizeofInts n)
      have hwidth := (sizeofInts n).isLt
      split at hcond <;> omega
    have hnat : (sizeofInts n).toNat = (toSize n).toNat * 4 % 2 ^ 64 % 2 ^ 32 := by
      rw [sizeofInts, BitVec.toNat_setWidth, BitVec.toNat_mul]
      rfl
    exact ⟨(sizeofInts n).toNat / 4, by omega, by omega⟩
  · cases h

theorem length_ints (vs : List CInt) : (vs.flatMap intBytes).length = 4 * vs.length := by
  induction vs with
  | nil => rfl
  | cons v vs ih =>
    rw [List.flatMap_cons, List.length_append, ih, List.length_cons]
    show 4 + 4 * vs.length = 4 * (vs.length + 1)
    omega

theorem drop_ints (vs : List CInt) (i : ℕ) :
    (vs.flatMap intBytes).drop (4 * i) = (vs.drop i).flatMap intBytes := by
  induction i generalizing vs with
  | zero => rfl
  | succ i ih =>
    cases vs with
    | nil => simp
    | cons v vs =>
      rw [List.drop_succ_cons, ← ih vs, List.flatMap_cons, Nat.mul_succ, Nat.add_comm,
        ← List.drop_drop]
      rfl

theorem take_ints (vs : List CInt) (i : ℕ) :
    (vs.flatMap intBytes).take (4 * i) = (vs.take i).flatMap intBytes := by
  induction i generalizing vs with
  | zero => rfl
  | succ i ih =>
    cases vs with
    | nil => simp
    | cons v vs =>
      rw [List.take_succ_cons, List.flatMap_cons, List.flatMap_cons, ← ih vs, Nat.mul_succ,
        Nat.add_comm]
      have htake : (intBytes v ++ vs.flatMap intBytes).take ((intBytes v).length + 4 * i)
          = intBytes v ++ (vs.flatMap intBytes).take (4 * i) := List.take_length_add_append _
      exact htake

/-- The `int` read at position `4 * i` is the one with index `i`. -/
theorem fread_ints (vs : List CInt) (i : ℕ) : fread (vs.flatMap intBytes) (4 * i) = vs[i]? := by
  rw [fread, drop_ints, AccessLog.readInts_flatMap, List.head?_drop]

/-- The `int` written at position `4 * i` replaces the one with index `i`. -/
theorem fwrite_ints {vs : List CInt} {i : ℕ} (hi : i < vs.length) (v : CInt) :
    fwrite (vs.flatMap intBytes) (4 * i) v = (vs.set i v).flatMap intBytes := by
  have hgap : 4 * i - (vs.flatMap intBytes).length = 0 := by
    rw [length_ints]
    omega
  have hdrop := drop_ints vs (i + 1)
  rw [Nat.mul_succ] at hdrop
  rw [fwrite, hgap, hdrop, take_ints, List.set_eq_take_append_cons_drop, if_pos hi]
  simp

/-- The `int` written at the end of the file is added to it. -/
theorem fwrite_ints_end (vs : List CInt) (v : CInt) :
    fwrite (vs.flatMap intBytes) (4 * vs.length) v = (vs ++ [v]).flatMap intBytes := by
  have hlen := length_ints vs
  rw [fwrite, ← hlen, Nat.sub_self, List.take_length, List.drop_eq_nil_of_le (Nat.le_add_right _ 4)]
  simp

end IntFile
