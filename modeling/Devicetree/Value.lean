import Devicetree.Expr
import Devicetree.Text

namespace Devicetree

inductive Value where
  | str (text : String)
  | expr (e : Expr)
  | label (name : String)
  | path (path : String)
  | cells (cells : List Value)
  | bytes (bytes : List UInt8)
deriving Repr, Inhabited

namespace Value

def isReference : Value → Bool
  | .label _ | .path _ => true
  | _ => false

def isExpr : Value → Bool
  | .expr _ => true
  | _ => false

def str? : Value → Option String
  | .str s => some s
  | _ => none

def expr? : Value → Option Expr
  | .expr e => some e
  | _ => none

/-- The components of a value with the cells of its arrays inline. -/
def flatten : List Value → List Value
  | [] => []
  | .cells cs :: vs => cs ++ flatten vs
  | v :: vs => v :: flatten vs

mutual

def render : Value → String
  | .str s => "\"" ++ s ++ "\""
  | .expr e => e.render
  | .label l => "&" ++ l
  | .path p => "&\x7b" ++ p ++ "\x7d"
  | .cells cs => "<" ++ " ".intercalate (renderAll cs) ++ ">"
  | .bytes bs => "[" ++ " ".intercalate (bs.map Text.hexByte) ++ "]"

def renderAll : List Value → List String
  | [] => []
  | v :: vs => render v :: renderAll vs

end

end Value

end Devicetree
