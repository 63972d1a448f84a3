/-!
Binary floating point with 53 significant bits and least exponent -1074. Values are not negative;
whoever needs a sign keeps it apart. Every operation is the exact one, rounded once to the nearest
value, a tie going to the even mantissa.
-/
namespace HelpAudit

/-- The value `mantissa * 2 ^ exponent`. -/
structure Binary64 where
  mantissa : Nat
  exponent : Int
  deriving DecidableEq, Inhabited

namespace Binary64

def zero : Binary64 := ⟨0, 0⟩

/-- The nearest integer to `num / den`, the even one of two. -/
def roundDiv (num den : Nat) : Nat :=
  let q := num / den
  let twice := 2 * (num % den)
  if twice < den then q
  else if den < twice then q + 1
  else q + q % 2

/-- Numerator and denominator of `num / den * 2 ^ (-e)`. -/
def scale (num den : Nat) (e : Int) : Nat × Nat :=
  (num * Nat.pow 2 (-e).toNat, den * Nat.pow 2 e.toNat)

/-- The exponent that gives `num / den` 53 significant bits, or the least one. -/
def exponentFor (num den : Nat) : Int :=
  let guess : Int := (Nat.log2 num : Int) - Nat.log2 den - 52
  let (n, d) := scale num den guess
  max (-1074) (if n < Nat.pow 2 52 * d then guess - 1 else guess)

/-- The value nearest to `num / den`; none when that is `2 ^ 1024` or more. -/
def ofRatio (num den : Nat) : Option Binary64 :=
  if num = 0 then some zero
  else
    let e := exponentFor num den
    let (n, d) := scale num den e
    let m := roundDiv n d
    let rounded : Binary64 := if m = Nat.pow 2 53 then ⟨Nat.pow 2 52, e + 1⟩ else ⟨m, e⟩
    if rounded.exponent ≤ 971 then some (if m = 0 then zero else rounded) else none

def ofNat (n : Nat) : Option Binary64 := ofRatio n 1

/-- Numerator and denominator. -/
def ratio (f : Binary64) : Nat × Nat :=
  (f.mantissa * Nat.pow 2 f.exponent.toNat, Nat.pow 2 (-f.exponent).toNat)

def mul (f g : Binary64) : Option Binary64 :=
  ofRatio (f.ratio.1 * g.ratio.1) (f.ratio.2 * g.ratio.2)

def div (f g : Binary64) : Option Binary64 :=
  ofRatio (f.ratio.1 * g.ratio.2) (f.ratio.2 * g.ratio.1)

end Binary64

end HelpAudit
