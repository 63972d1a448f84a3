import HelpAudit.Decimal.Shortest
import HelpAudit.Text.Digit

/-!
Numbers of JSON documents. A number without fraction and exponent that fits 64 bits is an integer;
any other is binary floating point: the leading digits that fit 64 bits, scaled by a power of ten.
-/
namespace HelpAudit.Json

/-- An integer of at most 64 bits, or a binary floating point value and its sign. -/
inductive Number where
  | natural (n : Nat)
  | negative (n : Nat)
  | float (isNegative : Bool) (size : Binary64)
  deriving DecidableEq, Inhabited

/-- The digits of a number as a document writes them. -/
structure NumberText where
  isNegative : Bool
  whole : List Char
  fraction : Option (List Char)
  exponent : Option (Bool × List Char)
  deriving DecidableEq

namespace NumberText

def digitValue (c : Char) : Nat := c.toNat - '0'.toNat

/-- Extends a 64-bit number by digits as long as it stays one; tells how many digits are left. -/
def extend (n : Nat) : List Char → Nat × Nat
  | [] => (n, 0)
  | d :: ds =>
    let m := n * 10 + digitValue d
    if m < Nat.pow 2 64 then extend m ds else (n, ds.length + 1)

def natural (ds : List Char) : Nat := ds.foldl (fun n d => n * 10 + digitValue d) 0

def power (k : Nat) : Option Binary64 := Binary64.ofNat (Nat.pow 10 k)

/-- Divides by a power of ten, at most `10 ^ 308` at a time. -/
def scaleDown (f : Binary64) (k : Nat) : Option Binary64 :=
  if k ≤ 308 then (power k).bind f.div
  else if f.mantissa = 0 then some f
  else ((power 308).bind f.div).bind (scaleDown · (k - 308))
  termination_by k

/-- Multiplies by a power of ten; none beyond the greatest value. -/
def scaleUp (f : Binary64) (k : Nat) : Option Binary64 :=
  if f.mantissa = 0 then some f
  else if k ≤ 308 then (power k).bind f.mul
  else none

/-- The size of the number; digits past the 64-bit ones only shift it. -/
def size (t : NumberText) : Option Binary64 :=
  let (n, left) := extend 0 t.whole
  let fraction := t.fraction.getD []
  let (m, skipped) := extend n fraction
  let written : Int := match t.exponent with
    | none => 0
    | some (isNegative, ds) => if isNegative then -(natural ds : Int) else natural ds
  let shift : Int := left - (fraction.length - skipped : Nat) + written
  (Binary64.ofNat m).bind fun f =>
    if 0 ≤ shift then scaleUp f shift.toNat else scaleDown f (-shift).toNat

/-- None when the number is out of range. -/
def value? (t : NumberText) : Option Number :=
  let n := natural t.whole
  if t.fraction.isNone && t.exponent.isNone && !t.isNegative && n < Nat.pow 2 64 then some (.natural n)
  else if t.fraction.isNone && t.exponent.isNone && t.isNegative && 0 < n && n ≤ Nat.pow 2 63 then
    some (.negative n)
  else t.size.map (.float t.isNegative)

end NumberText

end HelpAudit.Json
