/-! Numbers of a settings file.

Only that a number is well formed is of interest, which includes that it fits: an
integer into 64 bits, and a float that is not negative below what rounds to
infinity. -/
namespace AnnotatedHeader.Settings

/-! ### Digits -/

/-- Digits, a single underscore allowed between two. -/
def areDigits (isDigit : Char → Bool) : List Char → Bool
  | [] => false
  | [c] => isDigit c
  | c :: '_' :: cs => isDigit c && areDigits isDigit cs
  | c :: cs => isDigit c && areDigits isDigit cs

def withoutSign : List Char → List Char
  | '+' :: cs | '-' :: cs => cs
  | cs => cs

def isHexDigit (c : Char) : Bool :=
  c.isDigit || ('a' ≤ c && c ≤ 'f') || ('A' ≤ c && c ≤ 'F')

def digitValue (c : Char) : Nat :=
  if c.isDigit then c.toNat - 48 else if c.isLower then c.toNat - 87 else c.toNat - 55

/-- The number that digits of a base write. -/
def numberOf (base : Nat) (cs : List Char) : Nat :=
  (cs.filter (· != '_')).foldl (fun n c => n * base + digitValue c) 0

/-- Decimal digits without a zero in front of others. -/
def isDecimal (cs : List Char) : Bool :=
  areDigits Char.isDigit cs && (cs.head? != some '0' || cs.length == 1)

/-! ### Integers -/

/-- Integers have 64 bits, one of them for the sign. -/
def integerLimit : Nat := 0x8000000000000000

def isInteger (cs : List Char) : Bool :=
  match cs with
  | '0' :: 'x' :: ds => areDigits isHexDigit ds && numberOf 16 ds < integerLimit
  | '0' :: 'o' :: ds => areDigits (fun c => '0' ≤ c && c ≤ '7') ds && numberOf 8 ds < integerLimit
  | '0' :: 'b' :: ds => areDigits (fun c => c == '0' || c == '1') ds && numberOf 2 ds < integerLimit
  | _ =>
    isDecimal (withoutSign cs) &&
      numberOf 10 (withoutSign cs) < integerLimit + (if cs.head? == some '-' then 1 else 0)

/-! ### Floats -/

/-- The power of ten that the end of a float writes. -/
def exponent? : List Char → Option Int
  | [] => some 0
  | c :: cs =>
    if (c == 'e' || c == 'E') && areDigits Char.isDigit (withoutSign cs) then
      let n : Int := numberOf 10 (withoutSign cs)
      some (if cs.head? == some '-' then -n else n)
    else none

def decimalRun (cs : List Char) : List Char := cs.takeWhile fun c => c.isDigit || c == '_'

/-- A float without a sign: `n` and `k` for `n` times ten to the power of `k`. -/
def decimal? (cs : List Char) : Option (Nat × Int) :=
  let whole := decimalRun cs
  if isDecimal whole then
    match cs.drop whole.length with
    | [] => none
    | '.' :: rest =>
      let places := decimalRun rest
      if areDigits Char.isDigit places then
        (exponent? (rest.drop places.length)).map fun k =>
          (numberOf 10 (whole ++ places), k - places.countP Char.isDigit)
      else none
    | rest => (exponent? rest).map fun k => (numberOf 10 whole, k)
  else none

/-- Halfway between the greatest double and the power of two above it. -/
def floatLimit : Nat := 0x3fffffffffffff <<< 970

/-- Whether `n` times ten to the power of `k` rounds to a finite double. -/
def isFinite (n : Nat) (k : Int) : Bool :=
  let size := (Nat.toDigits 10 n).length + k
  n == 0 || size ≤ 308 ||
    size == 309 && n * Nat.pow 10 k.toNat < floatLimit * Nat.pow 10 (-k).toNat

def isFloat (cs : List Char) : Bool :=
  let unsigned := withoutSign cs
  unsigned == "inf".toList || unsigned == "nan".toList ||
    (decimal? unsigned).any fun (n, k) => cs.head? == some '-' || isFinite n k

end AnnotatedHeader.Settings
