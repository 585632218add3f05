import Devicetree.Text

namespace Devicetree.Numeral

def digit? (c : Char) : Option Nat :=
  if c.isDigit then some (c.toNat - '0'.toNat)
  else if 'a' ≤ c ∧ c ≤ 'f' then some (c.toNat - 'a'.toNat + 10)
  else if 'A' ≤ c ∧ c ≤ 'F' then some (c.toNat - 'A'.toNat + 10)
  else none

/-- Appends the digits `cs` to the number `n`; `none` if one of them is no digit of `base`. -/
def extend (base : Nat) (n : Nat) : List Char → Option Nat
  | [] => some n
  | c :: cs =>
    match digit? c with
    | some d => if d < base then extend base (base * n + d) cs else none
    | none => none

/-- The number written by `cs`, which must not be empty. -/
def digits? (base : Nat) (cs : List Char) : Option Nat :=
  if cs.isEmpty then none else extend base 0 cs

/-- An unsigned word: one optional plus sign, then digits with a value below `2 ^ 64`. -/
def word? (base : Nat) (cs : List Char) : Option UInt64 :=
  let digits := match cs with
    | '+' :: rest => rest
    | _ => cs
  match digits? base digits with
  | some n => if n < UInt64.size then some (UInt64.ofNat n) else none
  | none => none

def isSuffix (c : Char) : Bool := c = 'u' || c = 'U' || c = 'l' || c = 'L'

/-- An unsigned literal without its suffix: `0x` starts a hexadecimal one, `0` before further digits an
octal one. -/
def unsigned? : List Char → Option UInt64
  | '0' :: 'x' :: cs | '0' :: 'X' :: cs => word? 16 cs
  | '0' :: c :: cs => word? 8 (c :: cs)
  | c :: cs => if c.isDigit then word? 10 (c :: cs) else none
  | [] => none

/-- A C integer literal with any run of `u` and `l` suffixes, read as a two's-complement word. -/
def literal? (text : String) : Option Int64 :=
  (unsigned? (text.toList.reverse.dropWhile isSuffix).reverse).map UInt64.toInt64

end Devicetree.Numeral
