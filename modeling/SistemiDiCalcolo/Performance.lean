/-
The timer of the benchmarks of Lab01 and Lab02 (`performance.c`).

* `diff`, `endTimer`, `get_nanoseconds`, `get_microseconds` and the others — the functions;
* `diff_exact` — the difference of two normalised times is normalised and exact;
* `get_nanoseconds_exact`, `narrow_exact_iff` — what the getters return: all but the first one
  convert their result to `unsigned int`;
* `reports_iff` — the timer reports a duration exactly if its microseconds are an `unsigned int`.
-/
import SistemiDiCalcolo.Transaction
import Mathlib.Algebra.Order.Ring.Int
import Mathlib.Tactic.Ring

/-- The C types `long` and `time_t`: 64 bits. -/
abbrev CLong := BitVec 64

namespace CLong

variable {x y : CLong}

theorem toInt_sub (hlo : -2 ^ 63 ≤ x.toInt - y.toInt) (hhi : x.toInt - y.toInt < 2 ^ 63) :
    (x - y).toInt = x.toInt - y.toInt := by
  rw [BitVec.toInt_sub, Int.bmod_eq_of_le (by omega) (by omega)]

theorem toInt_add (hlo : -2 ^ 63 ≤ x.toInt + y.toInt) (hhi : x.toInt + y.toInt < 2 ^ 63) :
    (x + y).toInt = x.toInt + y.toInt := by
  rw [BitVec.toInt_add, Int.bmod_eq_of_le (by omega) (by omega)]

theorem toInt_mul (hlo : -2 ^ 63 ≤ x.toInt * y.toInt) (hhi : x.toInt * y.toInt < 2 ^ 63) :
    (x * y).toInt = x.toInt * y.toInt := by
  rw [BitVec.toInt_mul, Int.bmod_eq_of_le (by omega) (by omega)]

/-- A `long` that is not negative, as `unsigned long`. -/
theorem toNat_of_nonneg (h : 0 ≤ x.toInt) : (x.toNat : ℤ) = x.toInt := by
  have hcond := BitVec.toInt_eq_toNat_cond x
  have hlt := x.isLt
  split at hcond <;> omega

end CLong

namespace Performance

structure Timespec where
  tv_sec : CLong
  tv_nsec : CLong
  deriving DecidableEq, Repr

namespace Timespec

variable {t : Timespec}

/-- The time in nanoseconds. -/
def nanos (t : Timespec) : ℤ := t.tv_sec.toInt * 1000000000 + t.tv_nsec.toInt

/-- The nanoseconds are less than a second. -/
def Normalised (t : Timespec) : Prop := 0 ≤ t.tv_nsec.toInt ∧ t.tv_nsec.toInt < 1000000000

end Timespec

def diff (start finish : Timespec) : Timespec :=
  if (finish.tv_nsec - start.tv_nsec).toInt < 0 then
    { tv_sec := finish.tv_sec - start.tv_sec - 1
      tv_nsec := 1000000000 + finish.tv_nsec - start.tv_nsec }
  else
    { tv_sec := finish.tv_sec - start.tv_sec
      tv_nsec := finish.tv_nsec - start.tv_nsec }

/-- `timer`, with the fields `begin` and `end`. -/
structure Timer where
  begun : Timespec
  ended : Timespec
  elapsed : Timespec
  deriving DecidableEq, Repr

/-- `begin`, at time `now`. -/
def beginTimer (now : Timespec) (t : Timer) : Timer := { t with begun := now }

/-- `end`, at time `now`. -/
def endTimer (now : Timespec) (t : Timer) : Timer :=
  { t with ended := now, elapsed := diff t.begun now }

/-- The conversion of a floating-point number that is a natural number to `unsigned int`; it has
no meaning beyond its range. -/
structure ToUnsigned where
  conv : ℕ → BitVec 32
  exact : ∀ q, q < 2 ^ 32 → conv q = BitVec.ofNat 32 q

/-- The conversion that keeps the low bits. -/
def ToUnsigned.lowBits : ToUnsigned := ⟨BitVec.ofNat 32, fun _ _ => rfl⟩

def get_nanoseconds (t : Timer) : BitVec 64 :=
  t.elapsed.tv_sec * 1000000000 + t.elapsed.tv_nsec

/-- `(unsigned int)round(get_nanoseconds(t)/unit)`; the quotient is taken to be exact
as `double`. -/
def narrow (c : ToUnsigned) (unit : BitVec 64) (t : Timer) : BitVec 64 :=
  (c.conv (get_nanoseconds t / unit).toNat).setWidth 64

def get_microseconds (c : ToUnsigned) (t : Timer) : BitVec 64 := narrow c 1000 t

def get_milliseconds (c : ToUnsigned) (t : Timer) : BitVec 64 := narrow c 1000000 t

def get_seconds (c : ToUnsigned) (t : Timer) : BitVec 64 := narrow c 1000000000 t

/-! ### The difference -/

section Diff

variable {start finish : Timespec}

/-- The borrow. -/
theorem diff_exact (hstart : start.Normalised) (hfinish : finish.Normalised)
    (hle : start.nanos ≤ finish.nanos) (hrep : finish.nanos - start.nanos < 2 ^ 63) :
    (diff start finish).Normalised ∧
      (diff start finish).nanos = finish.nanos - start.nanos := by
  obtain ⟨hs₀, hs₁⟩ := hstart
  obtain ⟨hf₀, hf₁⟩ := hfinish
  simp only [Timespec.nanos] at hle hrep ⊢
  have hnsec := CLong.toInt_sub (x := finish.tv_nsec) (y := start.tv_nsec) (by omega) (by omega)
  have hsec := CLong.toInt_sub (x := finish.tv_sec) (y := start.tv_sec) (by omega) (by omega)
  have hone : (1 : CLong).toInt = 1 := rfl
  have hbillion : (1000000000 : CLong).toInt = 1000000000 := rfl
  rw [diff, hnsec]
  split
  · have hborrow := CLong.toInt_sub (x := finish.tv_sec - start.tv_sec) (y := 1)
      (by rw [hsec, hone]; omega) (by rw [hsec, hone]; omega)
    have hcarry := CLong.toInt_add (x := 1000000000) (y := finish.tv_nsec)
      (by rw [hbillion]; omega) (by rw [hbillion]; omega)
    have hnsec' := CLong.toInt_sub (x := 1000000000 + finish.tv_nsec) (y := start.tv_nsec)
      (by rw [hcarry, hbillion]; omega) (by rw [hcarry, hbillion]; omega)
    rw [hcarry, hbillion] at hnsec'
    rw [hsec, hone] at hborrow
    refine ⟨⟨?_, ?_⟩, ?_⟩
    · show 0 ≤ (1000000000 + finish.tv_nsec - start.tv_nsec).toInt
      omega
    · show (1000000000 + finish.tv_nsec - start.tv_nsec).toInt < 1000000000
      omega
    · show (finish.tv_sec - start.tv_sec - 1).toInt * 1000000000 +
        (1000000000 + finish.tv_nsec - start.tv_nsec).toInt = _
      rw [hborrow, hnsec']
      ring
  · refine ⟨⟨?_, ?_⟩, ?_⟩
    · show 0 ≤ (finish.tv_nsec - start.tv_nsec).toInt
      omega
    · show (finish.tv_nsec - start.tv_nsec).toInt < 1000000000
      omega
    · show (finish.tv_sec - start.tv_sec).toInt * 1000000000 +
        (finish.tv_nsec - start.tv_nsec).toInt = _
      rw [hsec, hnsec]
      ring

end Diff

/-! ### The getters -/

section Getters

variable {c : ToUnsigned} {t t' : Timer} {d d' : ℤ}

/-- All nanoseconds, as long as they are a `long`. -/
theorem get_nanoseconds_exact (h : t.elapsed.Normalised) (hle : 0 ≤ t.elapsed.nanos)
    (hrep : t.elapsed.nanos < 2 ^ 63) : ((get_nanoseconds t).toNat : ℤ) = t.elapsed.nanos := by
  obtain ⟨h₀, h₁⟩ := h
  simp only [Timespec.nanos] at hle hrep ⊢
  have hbillion : (1000000000 : CLong).toInt = 1000000000 := rfl
  have hmul := CLong.toInt_mul (x := t.elapsed.tv_sec) (y := 1000000000)
    (by rw [hbillion]; omega) (by rw [hbillion]; omega)
  have hsum := CLong.toInt_add (x := t.elapsed.tv_sec * 1000000000) (y := t.elapsed.tv_nsec)
    (by rw [hmul, hbillion]; omega) (by rw [hmul, hbillion]; omega)
  rw [hmul, hbillion] at hsum
  rw [get_nanoseconds, CLong.toNat_of_nonneg (by rw [hsum]; exact hle), hsum]

/-- A quotient gets through the conversion exactly if it is an `unsigned int`. -/
theorem narrow_exact_iff (unit : BitVec 64) (h : ((get_nanoseconds t).toNat : ℤ) = d) :
    ((narrow c unit t).toNat : ℤ) = d / unit.toNat ↔ d / unit.toNat < 2 ^ 32 := by
  have hquotient : ((get_nanoseconds t / unit).toNat : ℤ) = d / unit.toNat := by
    rw [BitVec.toNat_udiv, Int.natCast_ediv, h]
  have hnarrow : (narrow c unit t).toNat = (c.conv (get_nanoseconds t / unit).toNat).toNat := by
    have hlt := (c.conv (get_nanoseconds t / unit).toNat).isLt
    rw [narrow, BitVec.toNat_setWidth, Nat.mod_eq_of_lt (by omega)]
  rw [hnarrow, ← hquotient]
  constructor
  · intro heq
    have hlt := (c.conv (get_nanoseconds t / unit).toNat).isLt
    omega
  · intro hlt
    rw [c.exact _ (by omega), BitVec.toNat_ofNat, Nat.mod_eq_of_lt (by omega)]

/-- The timer reports the duration `d`, in nanoseconds. -/
structure Reports (c : ToUnsigned) (t : Timer) (d : ℤ) : Prop where
  normalised : t.elapsed.Normalised
  elapsed : t.elapsed.nanos = d
  nanoseconds : ((get_nanoseconds t).toNat : ℤ) = d
  microseconds : ((get_microseconds c t).toNat : ℤ) = d / 1000
  milliseconds : ((get_milliseconds c t).toNat : ℤ) = d / 1000000
  seconds : ((get_seconds c t).toNat : ℤ) = d / 1000000000

/-- A longer duration gives no smaller result, as long as both are reported. -/
theorem Reports.mono (h : Reports c t d) (h' : Reports c t' d') (hle : d ≤ d') :
    (get_nanoseconds t).toNat ≤ (get_nanoseconds t').toNat ∧
      (get_microseconds c t).toNat ≤ (get_microseconds c t').toNat ∧
      (get_milliseconds c t).toNat ≤ (get_milliseconds c t').toNat ∧
      (get_seconds c t).toNat ≤ (get_seconds c t').toNat := by
  have hns := h.nanoseconds
  have hns' := h'.nanoseconds
  have hus := h.microseconds
  have hus' := h'.microseconds
  have hms := h.milliseconds
  have hms' := h'.milliseconds
  have hs := h.seconds
  have hs' := h'.seconds
  omega

/-- **What the timer reports**: the elapsed time and its nanoseconds are exact; the other
results are if the microseconds are an `unsigned int`, and the microseconds only then. -/
theorem reports_iff (c : ToUnsigned) (t : Timer) (now : Timespec) (hbegun : t.begun.Normalised)
    (hnow : now.Normalised) (hle : t.begun.nanos ≤ now.nanos)
    (hrep : now.nanos - t.begun.nanos < 2 ^ 63) :
    Reports c (endTimer now t) (now.nanos - t.begun.nanos) ↔
      (now.nanos - t.begun.nanos) / 1000 < 2 ^ 32 := by
  obtain ⟨hnormal, helapsed⟩ : (endTimer now t).elapsed.Normalised ∧
      (endTimer now t).elapsed.nanos = now.nanos - t.begun.nanos :=
    diff_exact hbegun hnow hle hrep
  have hns : ((get_nanoseconds (endTimer now t)).toNat : ℤ) = now.nanos - t.begun.nanos := by
    rw [← helapsed]
    exact get_nanoseconds_exact hnormal (by rw [helapsed]; omega) (by rw [helapsed]; omega)
  have hus := narrow_exact_iff (c := c) 1000 hns
  have hms := narrow_exact_iff (c := c) 1000000 hns
  have hs := narrow_exact_iff (c := c) 1000000000 hns
  constructor
  · exact fun h => hus.mp h.microseconds
  · intro hlt
    refine ⟨hnormal, helapsed, hns, hus.mpr hlt, hms.mpr ?_, hs.mpr ?_⟩
    · show _ / (1000000 : ℤ) < 2 ^ 32
      omega
    · show _ / (1000000000 : ℤ) < 2 ^ 32
      omega

/-- A second and a half, with a borrow. -/
theorem reports_second : Reports .lowBits
    (endTimer ⟨3, 200000000⟩ (beginTimer ⟨1, 700000000⟩ ⟨⟨0, 0⟩, ⟨0, 0⟩, ⟨0, 0⟩⟩)) 1500000000 := by
  have hd : Timespec.nanos ⟨3, 200000000⟩ - Timespec.nanos ⟨1, 700000000⟩ = 1500000000 := by decide
  rw [← hd]
  refine (reports_iff .lowBits (beginTimer ⟨1, 700000000⟩ ⟨⟨0, 0⟩, ⟨0, 0⟩, ⟨0, 0⟩⟩) ⟨3, 200000000⟩
    ?_ ?_ ?_ ?_).mpr ?_
  all_goals
    simp only [beginTimer, Timespec.Normalised, Timespec.nanos]
    decide

/-- A little more than 71 minutes: the microseconds begin again. -/
theorem microseconds_begin_again :
    get_microseconds .lowBits (endTimer ⟨4294, 967295000⟩ ⟨⟨0, 0⟩, ⟨0, 0⟩, ⟨0, 0⟩⟩) = 4294967295 ∧
      get_microseconds .lowBits (endTimer ⟨4294, 967296000⟩ ⟨⟨0, 0⟩, ⟨0, 0⟩, ⟨0, 0⟩⟩) = 0 ∧
      ¬ Reports .lowBits (endTimer ⟨4294, 967296000⟩ ⟨⟨0, 0⟩, ⟨0, 0⟩, ⟨0, 0⟩⟩) 4294967296000 := by
  have hzero : get_microseconds .lowBits
      (endTimer ⟨4294, 967296000⟩ ⟨⟨0, 0⟩, ⟨0, 0⟩, ⟨0, 0⟩⟩) = 0 := by decide
  refine ⟨by decide, hzero, fun h => ?_⟩
  have hus := h.microseconds
  rw [hzero] at hus
  revert hus
  decide

end Getters

end Performance
