import ScopeAnalysis.Toml

namespace ScopeAnalysis

namespace Toml

def isHexDigit (c : Char) : Bool :=
  c.isDigit || ('a' ≤ c && c ≤ 'f') || ('A' ≤ c && c ≤ 'F')

def digitValue (c : Char) : Nat :=
  if c.isDigit then c.toNat - 48
  else if 'a' ≤ c then c.toNat - 87
  else c.toNat - 55

def natOfDigits (base : Nat) (digits : List Char) : Nat :=
  digits.foldl (fun n c => n * base + digitValue c) 0

/-- One or more digits, without the underscores between them. -/
def digits? (isDigit : Char → Bool) : List Char → Option (List Char)
  | [] => none
  | [c] => if isDigit c then some [c] else none
  | c :: '_' :: cs => if isDigit c then (digits? isDigit cs).map (c :: ·) else none
  | c :: cs => if isDigit c then (digits? isDigit cs).map (c :: ·) else none

/-- Decimal digits that do not start with a superfluous zero. -/
def decimal? (cs : List Char) : Option (List Char) :=
  (digits? Char.isDigit cs).filter fun ds => ds.length == 1 || ds.head? != some '0'

/-- A sign, plus if none is written, and what follows it. -/
def signed : List Char → Bool × List Char
  | '-' :: cs => (true, cs)
  | '+' :: cs => (false, cs)
  | cs => (false, cs)

/-- The least number of 63 bits that is too large. -/
def integerLimit : Nat := 9223372036854775808

/-- A number in another base, which has no sign. -/
def based? (base : Nat) (isDigit : Char → Bool) (cs : List Char) : Option Int :=
  ((digits? isDigit cs).map (natOfDigits base)).bind fun n =>
    if n < integerLimit then some n else none

def integer? (cs : List Char) : Option Int :=
  match cs with
  | '0' :: 'x' :: cs => based? 16 isHexDigit cs
  | '0' :: 'o' :: cs => based? 8 (fun c => '0' ≤ c && c ≤ '7') cs
  | '0' :: 'b' :: cs => based? 2 (fun c => c == '0' || c == '1') cs
  | cs => do
    let (negative, cs) := signed cs
    let n := natOfDigits 10 (← decimal? cs)
    if negative then if n ≤ integerLimit then some (-n) else none
    else if n < integerLimit then some n else none

/-- `mantissa * 10 ^ exponent` is too large for a double: it reaches the midpoint between the
largest double and `2 ^ 1024`. -/
def overflows (mantissa : Nat) (exponent : Int) : Bool :=
  let magnitude := (Nat.toDigits 10 mantissa).length + exponent
  if mantissa == 0 || magnitude < 300 then false
  else if 320 < magnitude then true
  else
    let limit := Nat.pow 2 1024 - Nat.pow 2 970
    match exponent with
    | .ofNat e => decide (limit ≤ mantissa * Nat.pow 10 e)
    | .negSucc e => decide (limit * Nat.pow 10 (e + 1) ≤ mantissa)

/-- Digits with a sign, as they stand in an exponent. -/
def exponent? (cs : List Char) : Option Int := do
  let (negative, cs) := signed cs
  let n := natOfDigits 10 (← digits? Char.isDigit cs)
  return if negative then -n else n

/-- Decimal digits with a fraction, an exponent, or both. A positive number must not overflow. -/
def isDecimalFloat (cs : List Char) : Bool :=
  let (negative, cs) := signed cs
  let isMark (c : Char) : Bool := c == 'e' || c == 'E'
  let (number, mark) := cs.span fun c => !isMark c
  let (whole, point) := number.span (· != '.')
  let parts := do
    let whole ← decimal? whole
    let fraction ← if point.isEmpty then some [] else digits? Char.isDigit (point.drop 1)
    let exponent ← if mark.isEmpty then some 0 else exponent? (mark.drop 1)
    return (natOfDigits 10 (whole ++ fraction), exponent - fraction.length)
  match parts with
  | some (mantissa, exponent) =>
    !(point.isEmpty && mark.isEmpty) && (negative || !overflows mantissa exponent)
  | none => false

def isFloat (cs : List Char) : Bool :=
  let word := (signed cs).2
  word == "inf".toList || word == "nan".toList || isDecimalFloat cs

/-- Two digits, when they stand for a number within bounds. -/
def within? (lo hi : Nat) (a b : Char) : Option Nat :=
  let n := natOfDigits 10 [a, b]
  if a.isDigit && b.isDigit && decide (lo ≤ n) && decide (n ≤ hi) then some n else none

def daysIn (year month : Nat) : Nat :=
  let isLeap := year % 4 == 0 && (year % 100 != 0 || year % 400 == 0)
  if month == 2 then if isLeap then 29 else 28
  else if [4, 6, 9, 11].contains month then 30
  else 31

def date? : List Char → Option (List Char)
  | y₁ :: y₂ :: y₃ :: y₄ :: '-' :: m₁ :: m₂ :: '-' :: d₁ :: d₂ :: rest => do
    let year := [y₁, y₂, y₃, y₄]
    let month ← within? 1 12 m₁ m₂
    let _ ← within? 1 (daysIn (natOfDigits 10 year) month) d₁ d₂
    if year.all Char.isDigit then some rest else none
  | _ => none

/-- What follows a time of day, whose seconds may have a fraction. -/
def time? : List Char → Option (List Char)
  | h₁ :: h₂ :: ':' :: m₁ :: m₂ :: ':' :: s₁ :: s₂ :: rest => do
    let _ ← within? 0 23 h₁ h₂
    let _ ← within? 0 59 m₁ m₂
    let _ ← within? 0 60 s₁ s₂
    match rest with
    | '.' :: c :: rest => if c.isDigit then some (rest.dropWhile Char.isDigit) else none
    | rest => some rest
  | _ => none

def isOffset : List Char → Bool
  | [] | ['Z'] | ['z'] => true
  | [sign, h₁, h₂, ':', m₁, m₂] =>
    (sign == '+' || sign == '-') && (within? 0 23 h₁ h₂).isSome && (within? 0 59 m₁ m₂).isSome
  | _ => false

def isDate (cs : List Char) : Bool :=
  date? cs == some []

def isOffsetTime (cs : List Char) : Bool :=
  (time? cs).any isOffset

def isDatetime (cs : List Char) : Bool :=
  time? cs == some [] ||
    match date? cs with
    | some [] => true
    | some (mark :: rest) => (mark == 'T' || mark == 't') && isOffsetTime rest
    | none => false

def scalar? (word : List Char) : Option Toml :=
  if word == "true".toList then some (.boolean true)
  else if word == "false".toList then some (.boolean false)
  else if isDatetime word then some .datetime
  else if isFloat word then some .float
  else (integer? word).map .integer

end Toml

end ScopeAnalysis
