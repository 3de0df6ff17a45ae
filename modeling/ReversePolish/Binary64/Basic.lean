/-!
# Doubles as a sign and a magnitude code

A binary64 word is its sign bit and its remaining 63 bits, the *magnitude code*. The code orders
magnitudes: codes below `infinityCode` are the finite magnitudes in increasing order,
`infinityCode` is infinity, and every larger code is a NaN. A finite magnitude is a whole number
of units of `2 ^ -1074`, so its exact value is the natural number `units`.

Equality of doubles is equality of words. The numerical comparison, in which a NaN differs from
itself and the two zeros agree, is `numEq`.
-/

namespace ReversePolish

/-- A binary64 word: the sign bit and the magnitude code, its low 63 bits. -/
structure Binary64 where
  negative : Bool
  magnitude : Nat
  magnitude_lt : magnitude < 0x8000000000000000
  deriving DecidableEq

namespace Binary64

/-- The magnitude code of infinity: all exponent bits set and no fraction bit. -/
def infinityCode : Nat := 0x7ff0000000000000

def ofBits (bits : UInt64) : Binary64 :=
  ⟨decide (0x8000000000000000 ≤ bits.toNat), bits.toNat % 0x8000000000000000,
    Nat.mod_lt _ (by decide)⟩

/-- The bits of the word, the sign in front. -/
def toBits (x : Binary64) : UInt64 :=
  UInt64.ofNat ((if x.negative then 0x8000000000000000 else 0) + x.magnitude)

theorem toBits_toNat (x : Binary64) :
    x.toBits.toNat = (if x.negative then 0x8000000000000000 else 0) + x.magnitude := by
  have hMagnitude := x.magnitude_lt
  have hSize : UInt64.size = 0x10000000000000000 := rfl
  apply UInt64.toNat_ofNat_of_lt'
  rw [hSize]
  split <;> omega

@[simp] theorem ofBits_toBits (x : Binary64) : ofBits x.toBits = x := by
  obtain ⟨negative, magnitude, hMagnitude⟩ := x
  simp only [ofBits, toBits_toNat, mk.injEq]
  cases negative <;> simp <;> omega

@[simp] theorem toBits_ofBits (bits : UInt64) : (ofBits bits).toBits = bits := by
  apply UInt64.toNat_inj.mp
  have hBits : bits.toNat < 0x10000000000000000 := bits.toNat_lt
  rw [toBits_toNat]
  simp only [ofBits, decide_eq_true_eq]
  split <;> omega

/-! ## Classes of words -/

def isNaN (x : Binary64) : Bool := infinityCode < x.magnitude

def isInfinite (x : Binary64) : Bool := x.magnitude == infinityCode

def isFinite (x : Binary64) : Bool := x.magnitude < infinityCode

def isZero (x : Binary64) : Bool := x.magnitude == 0

/-- The NaN that every operation answers: positive, with only the first fraction bit set. -/
def nan : Binary64 := ⟨false, 0x7ff8000000000000, by decide⟩

def infinity (negative : Bool) : Binary64 := ⟨negative, infinityCode, by decide⟩

def zero (negative : Bool) : Binary64 := ⟨negative, 0, by decide⟩

/-- The opposite sign and the same magnitude. -/
def neg (x : Binary64) : Binary64 := { x with negative := !x.negative }

@[simp] theorem neg_neg (x : Binary64) : x.neg.neg = x := by
  simp [neg]

/-- Equality as numbers: a NaN equals nothing, and the two zeros are equal. -/
def numEq (x y : Binary64) : Bool :=
  !x.isNaN && !y.isNaN && (x == y || (x.isZero && y.isZero))

/-! ## Exact magnitudes -/

/-- The leading one of a significand of 53 bits, `2 ^ 52`, and so the first code with an exponent
and the distance from one exponent to the next. -/
def leadingBit : Nat := 0x10000000000000

/-- The number of units of `2 ^ -1074` in a finite magnitude. Below `leadingBit` the code is that
number; above, the code's high part is an exponent and its low 52 bits follow a leading one. -/
def units (code : Nat) : Nat :=
  if code < leadingBit then code
  else (leadingBit + code % leadingBit) <<< (code / leadingBit - 1)

/-- The number of units in one, `2 ^ 1074`. -/
@[irreducible] def unitsPerOne : Nat := 1 <<< 1074

/-- What a word stands for. -/
inductive Value where
  | nan
  | infinite (negative : Bool)
  | finite (negative : Bool) (units : Nat)
  deriving DecidableEq

/-- The value that a word stands for; the payload and the sign of a NaN are not part of it. -/
def value (x : Binary64) : Value :=
  if x.isNaN then .nan
  else if x.isInfinite then .infinite x.negative
  else .finite x.negative (units x.magnitude)

end Binary64

end ReversePolish
