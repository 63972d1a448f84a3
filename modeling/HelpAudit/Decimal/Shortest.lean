import HelpAudit.Decimal.Binary64

/-!
The fewest decimal digits that read back as a binary floating point value, and how a report writes
them. A grid is the set of multiples of a power of ten; the first grid that has a point between the
two halfway marks around the value is taken, and of two such points the nearer.
-/
namespace HelpAudit

/-- The value `digits * 10 ^ exponent`. -/
structure Decimal where
  digits : Nat
  exponent : Int
  deriving DecidableEq

namespace Binary64

/-- Four times the value and its two halfway marks, over one denominator. -/
structure Interval where
  low : Nat
  value : Nat
  high : Nat
  denominator : Nat
  closed : Bool

/-- Below a power of two the grid of values is twice as fine. -/
def interval (f : Binary64) : Interval :=
  let e := f.exponent - 2
  let up := Nat.pow 2 e.toNat
  let down := if f.mantissa = Nat.pow 2 52 ∧ -1074 < f.exponent then 1 else 2
  ⟨(4 * f.mantissa - down) * up, 4 * f.mantissa * up, (4 * f.mantissa + 2) * up,
    Nat.pow 2 (-e).toNat, f.mantissa % 2 = 0⟩

/-- The least `k` from `k` on with `den ≤ num * 10 ^ k`, tried `fuel` times. -/
def leastShift (num den : Nat) : (fuel k : Nat) → Nat
  | 0, k => k
  | fuel + 1, k => if den ≤ num * Nat.pow 10 k then k else leastShift num den fuel (k + 1)

/-- The exponent of the first decimal digit of `num / den`. -/
def leadingExponent (num den : Nat) : Int :=
  if den ≤ num then (Nat.toDigits 10 (num / den)).length - 1
  else -(leastShift num den 400 1 : Int)

/-- The grid points of spacing `10 ^ p` next to the value that read back as it, the nearer first. -/
def gridPoints (i : Interval) (p : Int) : List Nat :=
  let up := Nat.pow 10 (-p).toNat
  let den := i.denominator * Nat.pow 10 p.toNat
  let d := i.value * up / den
  let hits (n : Nat) : Bool :=
    if i.closed then i.low * up ≤ n * den && n * den ≤ i.high * up
    else i.low * up < n * den && n * den < i.high * up
  let below := i.value * up - d * den
  let above := (d + 1) * den - i.value * up
  let order := if above < below ∨ (above = below ∧ d % 2 = 1) then [d + 1, d] else [d, d + 1]
  order.filter fun n => n ≠ 0 && hits n

/-- Tries grids with `digits` and more digits for the value. -/
def firstGrid (i : Interval) (lead : Int) : (fuel digits : Nat) → Decimal
  | 0, digits => ⟨0, lead - digits + 1⟩
  | fuel + 1, digits =>
    let p := lead - digits + 1
    match gridPoints i p with
    | n :: _ => ⟨n, p⟩
    | [] => firstGrid i lead fuel (digits + 1)

def shortest (f : Binary64) : Decimal :=
  let i := f.interval
  firstGrid i (leadingExponent i.value i.denominator) 17 1

end Binary64

/-- Digits without trailing zeros, and the exponent of the first. -/
def Decimal.significant (d : Decimal) : List Char × Int :=
  let all := Nat.toDigits 10 d.digits
  ((all.reverse.dropWhile (· == '0')).reverse, d.exponent + all.length - 1)

/-- Positional from `10 ^ -5` to below `10 ^ 16`, with a point always; else with an exponent of a
sign and two digits at least. -/
def Decimal.text (d : Decimal) : String :=
  let (ds, lead) := d.significant
  if ds.isEmpty then "0.0"
  else if -5 ≤ lead ∧ lead < 0 then
    "0." ++ .ofList (List.replicate (-lead - 1).toNat '0' ++ ds)
  else if 0 ≤ lead ∧ lead < 16 then
    let whole := lead.toNat + 1
    let fraction := ds.drop whole
    .ofList (ds.take whole ++ List.replicate (whole - ds.length) '0') ++ "."
      ++ .ofList (if fraction.isEmpty then ['0'] else fraction)
  else
    let size := Nat.toDigits 10 lead.natAbs
    .ofList (ds.take 1 ++ (if ds.length = 1 then [] else '.' :: ds.drop 1)) ++ "e"
      ++ (if lead < 0 then "-" else "+") ++ .ofList (List.replicate (2 - size.length) '0' ++ size)

def Binary64.text (f : Binary64) : String := if f.mantissa = 0 then "0.0" else f.shortest.text

end HelpAudit
