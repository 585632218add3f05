import Devicetree.Define
import Devicetree.Expr.Parse

namespace Devicetree

namespace Word

/-- The word with exactly this value. -/
def ofInt? (n : Int) : Option Int64 :=
  if Int64.minValue.toInt ≤ n ∧ n ≤ Int64.maxValue.toInt then some (Int64.ofInt n) else none

def quotient? (l r : Int64) : Option Int64 :=
  if r = 0 then none else ofInt? (l.toInt.tdiv r.toInt)

/-- The remainder, defined where the quotient is. -/
def remainder? (l r : Int64) : Option Int64 :=
  match quotient? l r with
  | some _ => ofInt? (l.toInt.tmod r.toInt)
  | none => none

def ofBool (b : Bool) : Int64 := if b then 1 else 0

/-- Words can be shifted by 0 to 63 places. -/
def isShift (r : Int64) : Bool := decide (0 ≤ r.toInt ∧ r.toInt < 64)

end Word

def UnaryOp.apply : UnaryOp → Int64 → Option Int64
  | .neg, v => Word.ofInt? (-v.toInt)
  | .bitNot, v => some (~~~v)
  | .logicalNot, v => some (Word.ofBool (decide (v = 0)))

/-- A shift to the left drops the bits that leave the word; a shift to the right keeps the sign. -/
def BinaryOp.apply : BinaryOp → Int64 → Int64 → Option Int64
  | .add, l, r => Word.ofInt? (l.toInt + r.toInt)
  | .sub, l, r => Word.ofInt? (l.toInt - r.toInt)
  | .mul, l, r => Word.ofInt? (l.toInt * r.toInt)
  | .div, l, r => Word.quotient? l r
  | .mod, l, r => Word.remainder? l r
  | .bitAnd, l, r => some (l &&& r)
  | .bitOr, l, r => some (l ||| r)
  | .bitXor, l, r => some (l ^^^ r)
  | .shl, l, r => if Word.isShift r then some (l <<< r) else none
  | .shr, l, r => if Word.isShift r then some (l >>> r) else none
  | .and, l, r => some (Word.ofBool (decide (l ≠ 0 ∧ r ≠ 0)))
  | .or, l, r => some (Word.ofBool (decide (l ≠ 0 ∨ r ≠ 0)))
  | .eq, l, r => some (Word.ofBool (decide (l = r)))
  | .ne, l, r => some (Word.ofBool (decide (l ≠ r)))
  | .lt, l, r => some (Word.ofBool (decide (l.toInt < r.toInt)))
  | .gt, l, r => some (Word.ofBool (decide (r.toInt < l.toInt)))
  | .le, l, r => some (Word.ofBool (decide (l.toInt ≤ r.toInt)))
  | .ge, l, r => some (Word.ofBool (decide (r.toInt ≤ l.toInt)))

/-- The value of an expression whose identifiers mean what `lookup` says. Both operands of an operator are
evaluated, but only one branch of a conditional. -/
def Expr.evalWith (lookup : String → Option Int64) : Expr → Option Int64
  | .lit l => some l.value
  | .ident name => lookup name
  | .unary op e => (e.evalWith lookup).bind op.apply
  | .binary l op r => do
    let a ← l.evalWith lookup
    let b ← r.evalWith lookup
    op.apply a b
  | .cond c t e => do
    let v ← c.evalWith lookup
    if v ≠ 0 then t.evalWith lookup else e.evalWith lookup

namespace Defines

def maxNesting : Nat := 16

def valueWithin (d : Defines) : Nat → String → Option Int64
  | 0, _ => none
  | n + 1, name => do
    let body ← d.object? name
    let e ← Expr.parse? body
    e.evalWith (d.valueWithin n)

def evaluate (d : Defines) (e : Expr) : Option Int64 := e.evalWith (d.valueWithin maxNesting)

def evaluateText (d : Defines) (text : String) : Option Int64 := (Expr.parse? text).bind d.evaluate

end Defines

/-- What gives constant expressions their values. -/
structure ConstEvaluator where
  evaluate : Expr → Option Int64
  evaluateText : String → Option Int64

def Defines.evaluator (d : Defines) : ConstEvaluator := ⟨d.evaluate, d.evaluateText⟩

instance : Coe Defines ConstEvaluator := ⟨Defines.evaluator⟩

instance : Inhabited ConstEvaluator := ⟨Defines.evaluator {}⟩

end Devicetree
