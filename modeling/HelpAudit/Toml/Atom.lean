import HelpAudit.Toml.Key

/-! Numbers, dates and truth values of TOML text. They are checked; nobody asks what they are. -/
namespace HelpAudit.Toml

/-- Digits with single underscores between them. -/
def isDigits (p : Char → Bool) (cs : List Char) : Bool :=
  (cs.splitOnP (· == '_')).all fun run => !run.isEmpty && run.all p

def dropSign : List Char → List Char
  | '+' :: cs => cs
  | '-' :: cs => cs
  | cs => cs

/-- No zero stands before another digit. -/
def isWhole (cs : List Char) : Bool :=
  isDigits Char.isDigit cs && (cs.length == 1 || cs.head? != some '0')

def isHex (c : Char) : Bool := (Text.hexValue? c).isSome
def isOctal (c : Char) : Bool := '0' ≤ c && c ≤ '7'
def isBinary (c : Char) : Bool := c == '0' || c == '1'

/-- The number that digits write; underscores do not count. -/
def number (base : Nat) (cs : List Char) : Nat :=
  (cs.filterMap Text.hexValue?).foldl (fun n d => n * base + d) 0

/-- An integer of 128 bits, with or without a sign. -/
def isInteger : List Char → Bool
  | '0' :: 'x' :: cs => isDigits isHex cs && number 16 cs < Nat.pow 2 128
  | '0' :: 'o' :: cs => isDigits isOctal cs && number 8 cs < Nat.pow 2 128
  | '0' :: 'b' :: cs => isDigits isBinary cs && number 2 cs < Nat.pow 2 128
  | '-' :: cs => isWhole cs && number 10 cs ≤ Nat.pow 2 127
  | cs => isWhole (dropSign cs) && number 10 (dropSign cs) < Nat.pow 2 128

/-- The text before the first character of a kind, and the text after it if there is one. -/
def splitFirst (p : Char → Bool) (cs : List Char) : List Char × Option (List Char) :=
  (cs.takeWhile (!p ·), (cs.dropWhile (!p ·)).tail?)

/-- An exponent's value. -/
def exponentOf : List Char → Int
  | '-' :: cs => -(number 10 cs)
  | cs => number 10 (dropSign cs)

/-- The least number too great for binary floating point of 64 bits. -/
def floatBound : Nat := Nat.pow 2 1024 - Nat.pow 2 970

/-- The number with these digits before and after its point lies below the bound. Only those of 309
places have to be compared with it. -/
def isBounded (whole fraction : List Char) (exponent : Int) : Bool :=
  let digits := (whole ++ fraction).filter Char.isDigit
  let shift : Int := exponent - (fraction.filter Char.isDigit).length
  let places : Int := (digits.dropWhile (· == '0')).length + shift
  number 10 digits == 0 || places ≤ 308
    || (places == 309
      && number 10 digits * Nat.pow 10 shift.toNat < floatBound * Nat.pow 10 (-shift).toNat)

def isFloat (cs : List Char) : Bool :=
  let cs := dropSign cs
  if cs = "inf".toList || cs = "nan".toList then true
  else
    let (number, exponent) := splitFirst (fun c => c == 'e' || c == 'E') cs
    let (whole, fraction) := splitFirst (· == '.') number
    isWhole whole && (exponent.isSome || fraction.isSome)
      && (fraction.map (isDigits Char.isDigit)).getD true
      && (exponent.map fun e => isDigits Char.isDigit (dropSign e)).getD true
      && isBounded whole (fraction.getD []) (exponentOf (exponent.getD []))

def two? (a b : Char) : Option Nat :=
  if a.isDigit && b.isDigit then some ((a.toNat - 48) * 10 + (b.toNat - 48)) else none

def isLeap (year : Nat) : Bool := year % 4 == 0 && (year % 100 != 0 || year % 400 == 0)

def daysIn (year month : Nat) : Nat :=
  if month = 2 then if isLeap year then 29 else 28
  else if month = 4 ∨ month = 6 ∨ month = 9 ∨ month = 11 then 30 else 31

def isDate : List Char → Bool
  | [a, b, c, d, '-', m, n, '-', e, f] =>
    match two? a b, two? c d, two? m n, two? e f with
    | some century, some year, some month, some day =>
      1 ≤ month && month ≤ 12 && 1 ≤ day && day ≤ daysIn (century * 100 + year) month
    | _, _, _, _ => false
  | _ => false

def isWithin (most : Nat) (a b : Char) : Bool :=
  match two? a b with
  | some n => n ≤ most
  | none => false

/-- Hours and minutes, perhaps seconds, perhaps a fraction of them. -/
def isTime : List Char → Bool
  | a :: b :: ':' :: c :: d :: rest =>
    isWithin 23 a b && isWithin 59 c d
      && match rest with
        | [] => true
        | ':' :: e :: f :: more =>
          isWithin 60 e f
            && match more with
              | [] => true
              | '.' :: ds => !ds.isEmpty && ds.all Char.isDigit
              | _ => false
        | _ => false
  | _ => false

def isOffset : List Char → Bool
  | [sign, a, b, ':', c, d] =>
    (sign == '+' || sign == '-') && isWithin 23 a b && isWithin 59 c d
  | [z] => z == 'Z' || z == 'z'
  | _ => false

/-- A time with or without an offset. -/
def isOffsetTime (cs : List Char) : Bool :=
  let isMark (c : Char) : Bool := c == 'Z' || c == 'z' || c == '+' || c == '-'
  isTime (cs.takeWhile (!isMark ·))
    && (let offset := cs.dropWhile (!isMark ·)
        offset.isEmpty || isOffset offset)

def isDateTime (cs : List Char) : Bool :=
  isDate cs || isTime cs
    || (isDate (cs.take 10)
      && match cs.drop 10 with
        | t :: rest => (t == 'T' || t == 't' || t == ' ') && isOffsetTime rest
        | [] => false)

def isAtom (cs : List Char) : Bool :=
  cs = "true".toList || cs = "false".toList || isInteger cs || isFloat cs || isDateTime cs

def isAtomChar (c : Char) : Bool :=
  c.isAlphanum || c == '+' || c == '-' || c == '_' || c == '.' || c == ':'

/-- A date may be parted from its time by a blank. -/
def atom? (cs : List Char) : Option (List Char) :=
  let first := cs.takeWhile isAtomChar
  let rest := cs.dropWhile isAtomChar
  match rest with
  | ' ' :: d :: more =>
    if isDate first && d.isDigit then
      let second := (d :: more).takeWhile isAtomChar
      if isDateTime (first ++ ' ' :: second) then some ((d :: more).dropWhile isAtomChar) else none
    else if isAtom first then some rest else none
  | _ => if isAtom first then some rest else none

end HelpAudit.Toml
