/-! # The shortest decimal of a binary fraction

* `Binary`: a positive number `mantissa * 2 ^ exponent` of a binary format, with the numbers that
  round to it.
* `shortest`: of the decimals with the fewest digits that round to a number, the nearest.
* `Style.render`: the text of a decimal.
-/

namespace TranslationAudit.Decimal

/-- A number `mantissa * 2 ^ exponent`. Below it the next number is half as far away as above it if
`narrowBelow` is set. -/
structure Binary where
  mantissa : Nat
  exponent : Int
  narrowBelow : Bool
deriving DecidableEq, Inhabited

namespace Binary

/-- The number of a finite value of 64 bits, without its sign. -/
def ofBits (bits : Nat) : Binary :=
  let fraction := bits % Nat.pow 2 52
  let power : Nat := bits / Nat.pow 2 52 % Nat.pow 2 11
  if power = 0 then ⟨fraction, -1074, false⟩
  else ⟨Nat.pow 2 52 + fraction, Int.ofNat power - 1075, fraction = 0 && power > 1⟩

/-- Compares `x` quarters of the unit `2 ^ exponent` with `d * 10 ^ k`. -/
def compareQuarters (b : Binary) (x d : Nat) (k : Int) : Ordering :=
  compare (x * Nat.pow 2 b.exponent.toNat * Nat.pow 10 (-k).toNat)
    (4 * d * Nat.pow 10 k.toNat * Nat.pow 2 (-b.exponent).toNat)

/-- Whether `d * 10 ^ k` rounds to a number. The ends of the interval belong to it if the mantissa
is even. -/
def accepts (b : Binary) (d : Nat) (k : Int) : Bool :=
  let low := b.compareQuarters (4 * b.mantissa - if b.narrowBelow then 1 else 2) d k
  let high := b.compareQuarters (4 * b.mantissa + 2) d k
  let even := b.mantissa % 2 = 0
  (low = .lt || (even && low = .eq)) && (high = .gt || (even && high = .eq))

def floor (b : Binary) (k : Int) : Nat :=
  b.mantissa * Nat.pow 2 b.exponent.toNat * Nat.pow 10 (-k).toNat /
    (Nat.pow 10 k.toNat * Nat.pow 2 (-b.exponent).toNat)

/-- The nearer of two neighbours `d * 10 ^ k` and `(d + 1) * 10 ^ k`; of equally near ones the even
one. -/
def nearer (b : Binary) (d : Nat) (k : Int) : Nat :=
  match b.compareQuarters (8 * b.mantissa) (2 * d + 1) k with
  | .lt => d
  | .gt => d + 1
  | .eq => if d % 2 = 0 then d else d + 1

/-- The point of the grid of `10 ^ k` that stands for a number, if one rounds to it. -/
def onGrid? (b : Binary) (k : Int) : Option Nat :=
  let d := b.floor k
  match b.accepts d k && d ≠ 0, b.accepts (d + 1) k with
  | true, true => some (b.nearer d k)
  | true, false => some d
  | false, true => some (d + 1)
  | false, false => none

end Binary

def grids : List Int := (List.range 634).map fun i => 309 - Int.ofNat i

/-- Of the decimals `d * 10 ^ k` with the fewest digits that round to a number, the nearest. -/
def shortest (b : Binary) : Nat × Int :=
  (grids.findSome? fun k => (b.onGrid? k).map fun d => (d, k)).getD (0, 0)

/-! ## Text -/

/-- How decimals are written: positional if the point falls at most `leadingZeros` places before
the first digit and at most `places` places after it, and else with a signed exponent. -/
structure Style where
  leadingZeros : Nat
  places : Nat
deriving DecidableEq, Inhabited

def zeros (n : Nat) : List Char := List.replicate n '0'

namespace Style

/-- The text of `d * 10 ^ k`. A point always has a digit on both sides. -/
def render (n : Style) (d : Nat) (k : Int) : String :=
  let digits := (toString d).toList
  let point : Int := digits.length + k
  if 0 < point && point ≤ n.places then
    if 0 ≤ k then String.ofList (digits ++ zeros k.toNat) ++ ".0"
    else
      String.ofList (digits.take point.toNat) ++ "." ++ String.ofList (digits.drop point.toNat)
  else if point ≤ 0 && -n.leadingZeros ≤ point then
    "0." ++ String.ofList (zeros (-point).toNat ++ digits)
  else
    let rest := digits.drop 1
    String.ofList (digits.take 1) ++ (if rest.isEmpty then "" else "." ++ String.ofList rest) ++
      (if 0 < point then "e+" else "e") ++ toString (point - 1)

end Style

def floatText (n : Style) (f : Float) : String :=
  let bits := f.toBits.toNat
  let sign := if bits / Nat.pow 2 63 = 1 then "-" else ""
  if bits % Nat.pow 2 63 = 0 then sign ++ "0.0"
  else
    let (d, k) := shortest (.ofBits (bits % Nat.pow 2 63))
    sign ++ n.render d k

end TranslationAudit.Decimal
