namespace Devicetree

inductive Literal where
  | num (n : Int64)
  | char (c : Char)
deriving DecidableEq, Repr, Inhabited

/-- A character counts as its code point. -/
def Literal.value : Literal → Int64
  | .num n => n
  | .char c => Int64.ofNat c.toNat

inductive UnaryOp where
  | neg
  | bitNot
  | logicalNot
deriving DecidableEq, Repr

def UnaryOp.symbol : UnaryOp → String
  | .neg => "-"
  | .bitNot => "~"
  | .logicalNot => "!"

inductive BinaryOp where
  | add
  | sub
  | mul
  | div
  | mod
  | bitAnd
  | bitOr
  | bitXor
  | shl
  | shr
  | and
  | or
  | eq
  | ne
  | lt
  | gt
  | le
  | ge
deriving DecidableEq, Repr

namespace BinaryOp

def symbol : BinaryOp → String
  | add => "+"
  | sub => "-"
  | mul => "*"
  | div => "/"
  | mod => "%"
  | bitAnd => "&"
  | bitOr => "|"
  | bitXor => "^"
  | shl => "<<"
  | shr => ">>"
  | and => "&&"
  | or => "||"
  | eq => "=="
  | ne => "!="
  | lt => "<"
  | gt => ">"
  | le => "<="
  | ge => ">="

/-- How tightly the operator binds; a larger power binds tighter. -/
def power : BinaryOp → Nat
  | or => 1
  | and => 2
  | bitOr => 3
  | bitXor => 4
  | bitAnd => 5
  | eq | ne => 6
  | lt | gt | le | ge => 7
  | shl | shr => 8
  | add | sub => 9
  | mul | div | mod => 10

def all : List BinaryOp :=
  [add, sub, mul, div, mod, bitAnd, bitOr, bitXor, shl, shr, and, or, eq, ne, lt, gt, le, ge]

def ofSymbol? (s : String) : Option BinaryOp := all.find? fun op => decide (op.symbol = s)

end BinaryOp

/-- A constant expression. An identifier stands for a define. -/
inductive Expr where
  | lit (l : Literal)
  | ident (name : String)
  | unary (op : UnaryOp) (e : Expr)
  | binary (l : Expr) (op : BinaryOp) (r : Expr)
  | cond (c t e : Expr)
deriving DecidableEq, Repr, Inhabited

namespace Expr

def num (n : Int64) : Expr := .lit (.num n)

/-- The text of an expression, with parentheses around every operator that takes two or three operands. -/
def render : Expr → String
  | .lit (.num n) => toString n.toInt
  | .lit (.char c) => String.ofList ['\'', c, '\'']
  | .ident name => name
  | .unary op e => op.symbol ++ e.render
  | .binary l op r => "(" ++ l.render ++ " " ++ op.symbol ++ " " ++ r.render ++ ")"
  | .cond c t e => "(" ++ c.render ++ " ? " ++ t.render ++ " : " ++ e.render ++ ")"

end Expr

end Devicetree
