/-! Texts of configuration values: white space as Unicode's property White_Space lists it, and
numerals, which are an optional plus sign and decimal digits, below `2 ^ 64`. -/
namespace ActorAnalysis.Text

/-- The code points of white space, as ranges with both ends included. -/
def blankRanges : List (Nat × Nat) :=
  [(0x09, 0x0D), (0x20, 0x20), (0x85, 0x85), (0xA0, 0xA0), (0x1680, 0x1680), (0x2000, 0x200A),
    (0x2028, 0x2029), (0x202F, 0x202F), (0x205F, 0x205F), (0x3000, 0x3000)]

def isBlank (c : Char) : Bool :=
  blankRanges.any (fun r => decide (r.1 ≤ c.toNat) && decide (c.toNat ≤ r.2))

def trim (s : String) : String :=
  String.ofList (((s.toList.dropWhile isBlank).reverse.dropWhile isBlank).reverse)

def boundLimit : Nat := 18446744073709551616

def digit? (c : Char) : Option Nat :=
  if '0' ≤ c ∧ c ≤ '9' then some (c.toNat - '0'.toNat) else none

def readDigits (acc : Nat) : List Char → Option Nat
  | [] => some acc
  | c :: rest => (digit? c).bind (fun d => readDigits (10 * acc + d) rest)

def readBound? (s : String) : Option Nat :=
  let digits := match s.toList with
    | '+' :: rest => rest
    | all => all
  if digits.isEmpty then none
  else (readDigits 0 digits).filter (fun n => decide (n < boundLimit))

/-- Truth values are spelled in lower case only. -/
def readBool? (s : String) : Option Bool :=
  if s = "true" then some true else if s = "false" then some false else none

/-- Lower case of the letters `A` to `Z`; every other character is kept. -/
def lowerAscii (s : String) : String := String.ofList (s.toList.map Char.toLower)

end ActorAnalysis.Text
