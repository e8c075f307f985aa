/-!
# Decimal numbers, kept exactly

A `Decimal` is a written number: sign, digits and places after the point, so that it is printed as
it was read. A `Quantity` is the number itself. Two decimals that differ only in how they are
written have the same quantity, and so has an integer of the same size.
-/

namespace StateSpace

/-- A written decimal number; `finite negative digits places` stands for `± digits / 10 ^ places`.
-/
inductive Decimal where
  | finite (negative : Bool) (digits : Nat) (places : Nat)
  | infinite (negative : Bool)
  | nan
deriving DecidableEq, Repr

/-- The number itself; `ratio n p` is `n / 10 ^ p`. -/
inductive Quantity where
  | ratio (numerator : Int) (places : Nat)
  | negInf
  | posInf
  | nan
deriving DecidableEq, Repr

def denominator (places : Nat) : Nat := Nat.pow 10 places

namespace Quantity

def ofInt (n : Int) : Quantity := .ratio n 0

def reduced (n : Int) : Nat → Quantity
  | 0 => .ratio n 0
  | p + 1 => if n % 10 = 0 then reduced (n / 10) p else .ratio n (p + 1)

def lt : Quantity → Quantity → Bool
  | .nan, _ => false
  | _, .nan => false
  | .ratio a p, .ratio b q => a * denominator q < b * denominator p
  | .negInf, .negInf => false
  | .negInf, _ => true
  | _, .negInf => false
  | .posInf, _ => false
  | _, .posInf => true

def le : Quantity → Quantity → Bool
  | .nan, _ => false
  | _, .nan => false
  | a, b => !b.lt a

def below : Quantity → Rat → Bool
  | .ratio a p, t => a * t.den < t.num * denominator p
  | .negInf, _ => true
  | .posInf, _ => false
  | .nan, _ => false

/-- Where a quantity stands in the order: the numbers between the two infinities, `nan` last. -/
def rank : Quantity → Nat
  | .negInf => 0
  | .ratio _ _ => 1
  | .posInf => 2
  | .nan => 3

/-- Numbers by size. Those of one size with different places are kept apart. -/
def compareRatios (a : Int) (p : Nat) (b : Int) (q : Nat) : Ordering :=
  if a * denominator q < b * denominator p then .lt
  else if b * denominator p < a * denominator q then .gt
  else Ord.compare p q

def compare (a b : Quantity) : Ordering :=
  (Ord.compare a.rank b.rank).then <|
    match a, b with
    | .ratio a p, .ratio b q => compareRatios a p b q
    | _, _ => .eq

def divides (q : Quantity) (n : Nat) : Bool :=
  match q with
  | .ratio a p => a != 0 && ((n * denominator p : Nat) : Int) % a == 0
  | _ => false

end Quantity

namespace Decimal

def toQuantity : Decimal → Quantity
  | .finite negative digits places => .reduced (if negative then -digits else digits) places
  | .infinite negative => if negative then .negInf else .posInf
  | .nan => .nan

def fraction (digits places : Nat) : String :=
  let shown := toString (digits % denominator places)
  String.ofList (List.replicate (places - shown.length) '0') ++ shown

def text : Decimal → String
  | .finite negative digits places =>
    (if negative then "-" else "") ++ toString (digits / denominator places) ++ "." ++
      fraction digits places
  | .infinite negative => if negative then "-inf" else "inf"
  | .nan => "nan"

def unsigned? (negative : Bool) (s : String) : Option Decimal :=
  match s.splitOn "." with
  | [whole, rest] =>
    if whole.length = 0 || rest.length = 0 then none
    else if whole.all Char.isDigit && rest.all Char.isDigit then
      (whole ++ rest).toNat?.map fun digits => .finite negative digits rest.length
    else none
  | _ => none

def parse? (s : String) : Option Decimal :=
  if s = "inf" then some (.infinite false)
  else if s = "-inf" then some (.infinite true)
  else if s = "nan" then some .nan
  else match s.toList with
    | '-' :: rest => unsigned? true (String.ofList rest)
    | _ => unsigned? false s

end Decimal

end StateSpace
