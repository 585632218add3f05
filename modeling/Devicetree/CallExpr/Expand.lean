import Devicetree.CallExpr.Parse
import Devicetree.Define

namespace Devicetree

def replacement? (params args : List String) (t : Token) : Option String :=
  if t.kind = .ident then
    (params.findIdx? fun p => decide (p = t.text)).bind fun i => args[i]?
  else none

/-- Goes on through the tokens of a body. So far it came to `out`, and the last token ended at the byte `last`. -/
def substituteFrom (body : List Char) (params args : List String) :
    (out : List Char) → (last : Nat) → List Token → List Char
  | out, last, [] => out ++ Text.dropBytes last body
  | out, last, t :: ts =>
    let replaced := (replacement? params args t).getD t.text
    substituteFrom body params args (out ++ Text.slice body last t.offset ++ replaced.toList) t.stop ts

/-- A text with its parameters replaced by arguments, all at once; the rest stays as it is. -/
def substitute (body : String) (params args : List String) : String :=
  String.ofList (substituteFrom body.toList params args [] 0 (Token.tokenize body))

/-- What a define makes of an expression: the body of a plain one, or the body of one with as many
parameters as there are arguments. -/
def CallExpr.expand? (d : Defines) : CallExpr → Option CallExpr
  | .leaf .ident name _ => (d.object? name).bind CallExpr.parse?
  | .leaf _ _ _ => none
  | .call name args _ => do
    let f ← d.function? name
    if f.params.length = args.length then
      CallExpr.parse? (substitute f.body f.params (CallExpr.texts args))
    else none

end Devicetree
