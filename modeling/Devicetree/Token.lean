import Devicetree.Text

namespace Devicetree

/-- What a token is. Two-character operators and all characters without a class of their own are `other`. -/
inductive Token.Kind where
  | blank
  | comment
  | ident
  | number
  | str
  | char
  | lparen
  | rparen
  | comma
  | other
deriving DecidableEq, Repr, Inhabited

def Token.Kind.isTrivia : Token.Kind → Bool
  | .blank | .comment => true
  | _ => false

/-- A token, its text and the byte offset at which it starts. A 32-bit word holds the offsets in texts of less than 2^32
bytes. -/
structure Token where
  kind : Token.Kind
  text : String
  offset : Nat
deriving DecidableEq, Repr, Inhabited

namespace Token

def stop (t : Token) : Nat := t.offset + Text.byteLength t.text.toList

def isOperator (t : Token) (symbol : String) : Bool :=
  decide (t.kind = .other) && decide (t.text = symbol)

end Token

end Devicetree
