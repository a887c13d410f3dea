import LiftedPlanning.Explanation
import LiftedPlanning.Text.Number

/-!
# Binary floating-point numbers in texts

Numbers of 64-bit binary floating point are fractions `m · 2^e` with `m < 2^53` and `-1074 ≤ e`, and
the infinities and the non-number beside them. Each is kept in one form only: with the least `e`,
and zero with `e = 0`. A decimal text stands for the nearest such number, of two equally near ones
for the one with an even `m`. In the other direction a number is written with the fewest significant
digits that stand for it, of two such texts with the nearer one and of two equally near ones with
the greater one, and never with an exponent.

All of this is done on natural numbers: a magnitude is a quotient of two of them.
-/

namespace LiftedPlanning.Text

/-- A floating-point number; `finite` is `mantissa · 2^exponent` with a sign. -/
inductive Binary64
  | finite (negative : Bool) (mantissa : Nat) (exponent : Int)
  | infinite (negative : Bool)
  | notANumber
  deriving DecidableEq, Repr

/-- `num / den` rounded to the nearest natural number, a half to the even one. -/
def roundHalfEven (num den : Nat) : Nat :=
  let q := num / den
  let twice := 2 * (num % den)
  if twice < den then q else if den < twice then q + 1 else q + q % 2

/-- `num / den` rounded to the nearest natural number, a half upwards. -/
def roundHalfUp (num den : Nat) : Nat :=
  (2 * num + den) / (2 * den)

namespace Binary64

/-- `num · 2^e`, as a quotient. -/
def scale (num : Nat) (e : Int) : Nat × Nat :=
  (num * Nat.pow 2 e.toNat, Nat.pow 2 (-e).toNat)

/-- The greatest `k` with `2^k ≤ num / den`, for a positive quotient. -/
def log2Quotient (num den : Nat) : Int :=
  let k : Int := (num.log2 : Int) - den.log2
  let (a, b) := scale 1 k
  if num * b < den * a then k - 1 else k

/-- The least natural number that is no mantissa. -/
def mantissaBound : Nat := Nat.pow 2 53

/-- The number `mantissa · 2^e` for a mantissa up to the bound. The bound itself is a power of two,
which is halved to become a mantissa. -/
def ofScaled (negative : Bool) (mantissa : Nat) (e : Int) : Binary64 :=
  let (mantissa, e) := if mantissa = mantissaBound then (mantissa / 2, e + 1) else (mantissa, e)
  if mantissa = 0 then
    .finite negative 0 0
  else if e < 972 then
    .finite negative mantissa e
  else
    .infinite negative

/-- The number nearest to a quotient. -/
def nearest (negative : Bool) (num den : Nat) : Binary64 :=
  if num = 0 then
    .finite negative 0 0
  else
    let e := max (-1074) (log2Quotient num den - 52)
    let (a, b) := scale 1 (-e)
    ofScaled negative (roundHalfEven (num * a) (den * b)) e

/-- The magnitude of a finite number, as a quotient. -/
def magnitude? : Binary64 → Option (Nat × Nat)
  | .finite _ mantissa exponent => some (scale mantissa exponent)
  | _ => none

/-- Whether a number is less than zero; a zero with a sign is not. -/
def isNegative : Binary64 → Bool
  | .finite negative mantissa _ => negative && mantissa != 0
  | .infinite negative => negative
  | .notANumber => false

/-! ## Reading -/

/-- A decimal number `digits · 10^exponent`. The bounds on the exponent keep the powers of ten
small: beyond them every number is infinite or zero. -/
def ofDecimal (negative : Bool) (digits : List Nat) (exponent : Int) : Binary64 :=
  let value := digits.foldl (fun n d ↦ 10 * n + d) 0
  let size : Int := (digits.dropWhile (· == 0)).length + exponent
  if value = 0 ∨ size < -400 then
    .finite negative 0 0
  else if 400 < size then
    .infinite negative
  else
    nearest negative (value * Nat.pow 10 exponent.toNat) (Nat.pow 10 (-exponent).toNat)

/-- The digits at the start of a text, and what follows them. -/
def takeDigits (cs : List Char) : List Nat × List Char :=
  (cs.takeWhile (digitValue? · |>.isSome) |>.filterMap digitValue?,
    cs.dropWhile (digitValue? · |>.isSome))

/-- The digits after a point, if there is one, and what follows them. -/
def takeFraction : List Char → List Nat × List Char
  | '.' :: cs => takeDigits cs
  | cs => ([], cs)

/-- The value of an exponent that makes up a whole text; without exponent it is 0. -/
def exponent? (cs : List Char) : Option Int :=
  match cs with
  | [] => some 0
  | e :: cs =>
    if e = 'e' ∨ e = 'E' then
      let (negative, cs) := match cs with
        | '-' :: cs => (true, cs)
        | '+' :: cs => (false, cs)
        | _ => (false, cs)
      match takeDigits cs with
      | ([], _) => none
      | (digits, []) =>
        let value : Nat := digits.foldl (fun n d ↦ min (10 * n + d) 1000000) 0
        some (if negative then -(value : Int) else value)
      | _ => none
    else
      none

/-- Reads an unsigned number: digits with an optional point and an optional exponent, or one of the
words for the special numbers in any case. -/
def ofUnsigned? (negative : Bool) (cs : List Char) : Option Binary64 :=
  let word := String.ofList (cs.map Char.toLower)
  if word = "inf" ∨ word = "infinity" then
    some (.infinite negative)
  else if word = "nan" then
    some .notANumber
  else
    let (whole, rest) := takeDigits cs
    let (fraction, rest) := takeFraction rest
    match whole ++ fraction with
    | [] => none
    | digits => (exponent? rest).map fun e ↦ ofDecimal negative digits (e - fraction.length)

/-- Reads a number with an optional sign. -/
def ofText? : List Char → Option Binary64
  | '-' :: cs => ofUnsigned? true cs
  | '+' :: cs => ofUnsigned? false cs
  | cs => ofUnsigned? false cs

/-! ## Writing -/

/-- A decimal number `digits · 10^exponent` in positional notation. -/
def positional (digits : Nat) (exponent : Int) : String :=
  let text := toString digits
  if 0 ≤ exponent then
    text ++ String.ofList (List.replicate exponent.toNat '0')
  else
    let places := (-exponent).toNat
    let padded := List.replicate (places + 1 - text.length) '0' ++ text.toList
    let whole := padded.take (padded.length - places)
    let fraction := padded.drop (padded.length - places)
    String.ofList (whole ++ '.' :: fraction)

/-- A multiple of `10^exponent` that stands for the same number as `num / den`; of the two multiples
around the quotient, the nearer one is tried first, and of two equally near ones the greater one. -/
def decimalAt? (num den : Nat) (exponent : Int) : Option Nat :=
  let up := Nat.pow 10 (-exponent).toNat
  let down := Nat.pow 10 exponent.toNat
  let floor := num * up / (den * down)
  let near := roundHalfUp (num * up) (den * down)
  let far := if near = floor then floor + 1 else floor
  [near, far].find? fun digits ↦
    digits ≠ 0 ∧ nearest false (digits * down) up = nearest false num den

/-- The first success among the exponents `e`, `e - 1`, … -/
def shortestFrom (num den : Nat) : Nat → Int → Nat × Int
  | 0, e => (roundHalfUp (num * Nat.pow 10 (-e).toNat) (den * Nat.pow 10 e.toNat), e)
  | n + 1, e =>
    match decimalAt? num den e with
    | some digits => (digits, e)
    | none => shortestFrom num den n (e - 1)

/-- The shortest decimal text of a finite magnitude. The search starts above the leading digit. -/
def magnitudeText (num den : Nat) : String :=
  if num = 0 then
    "0"
  else
    let leading : Int := (toString (num / den)).length - (toString (den / num)).length + 1
    let (digits, e) := shortestFrom num den 20 leading
    positional digits e

/-- The shortest positional text of a number, or the word for a special one. -/
def text (x : Binary64) : String :=
  match x with
  | .finite negative mantissa exponent =>
    let (num, den) := scale mantissa exponent
    (if negative then "-" else "") ++ magnitudeText num den
  | .infinite negative => if negative then "-inf" else "inf"
  | .notANumber => "NaN"

end Binary64

end LiftedPlanning.Text
