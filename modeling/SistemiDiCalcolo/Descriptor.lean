/-
What a program sees of a `read` or a `write` on a descriptor, the `int`s in a buffer of
bytes, and texts.
-/
import SistemiDiCalcolo.Memory
import SistemiDiCalcolo.AccessLog

open AccessLog (Byte intBytes readInts)

/-- The C type `size_t`. -/
abbrev SizeT := BitVec 64

/-- The conversion of an `int` to `size_t`. -/
def toSize (v : CInt) : SizeT := v.signExtend 64

theorem toSize_ofNat {n : ℕ} (hn : n < 2 ^ 31) :
    toSize (BitVec.ofNat 32 n) = BitVec.ofNat 64 n := by
  have hmsb : (BitVec.ofNat 32 n).msb = false := by
    rw [BitVec.msb_eq_false_iff_two_mul_lt, BitVec.toNat_ofNat]
    omega
  rw [toSize, BitVec.signExtend_eq_setWidth_of_msb_false hmsb]
  apply BitVec.eq_of_toNat_eq
  rw [BitVec.toNat_setWidth, BitVec.toNat_ofNat, BitVec.toNat_ofNat]
  omega

/-- Small numbers of bytes are different `int`s, and different `size_t`s. -/
theorem ofNat_inj_of_lt {w m k : ℕ} (hm : m < 2 ^ w) (hk : k < 2 ^ w) :
    BitVec.ofNat w m = BitVec.ofNat w k ↔ m = k := by
  refine ⟨fun h => ?_, congrArg _⟩
  have hnat := congrArg BitVec.toNat h
  rwa [BitVec.toNat_ofNat, BitVec.toNat_ofNat, Nat.mod_eq_of_lt hm, Nat.mod_eq_of_lt hk] at hnat

/-- The characters of a text. -/
def charBytes (text : String) : List Byte := text.toList.map fun c => BitVec.ofNat 8 c.toNat

/-- A call interrupted before it has moved anything (-1 with `EINTR`), or the number
of bytes it has moved. -/
inductive Ret
  | eintr
  | moved (n : ℕ)
  deriving DecidableEq, Repr

/-- Whether the call was not interrupted. -/
def Ret.isMoved : Ret → Bool
  | .eintr => false
  | .moved _ => true

/-- The `int` at an address, the low byte first. -/
def intAt (m : Memory Byte) (a : ℕ) : CInt :=
  (m (a + 3) ++ m (a + 2) ++ m (a + 1) ++ m a : BitVec (8 + 8 + 8 + 8))

theorem readInts_load (m : Memory Byte) (a : ℕ) : readInts (m.load a 4) = [intAt m a] := rfl

/-- Four bytes that hold an `int` are read as that `int`. -/
theorem intAt_of_load {m : Memory Byte} {a : ℕ} {v : CInt} (h : m.load a 4 = intBytes v) :
    intAt m a = v := by
  have hread := AccessLog.readInts_intBytes v []
  rw [List.append_nil, ← h, readInts_load] at hread
  exact List.head_eq_of_cons_eq hread
