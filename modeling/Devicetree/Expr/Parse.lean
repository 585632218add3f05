import Devicetree.Expr
import Devicetree.Numeral
import Devicetree.Token.Scan

namespace Devicetree.Expr

/-- A character literal holds exactly one character, and that is no escape. -/
def charLiteral? (text : String) : Option Char :=
  match text.toList with
  | ['\'', c, '\''] => some c
  | _ => none

mutual

/-- An operator chain, then perhaps `?` and two conditionals with `:` between them. -/
def parseCond : Nat → List Token → Option (Expr × List Token)
  | 0, _ => none
  | n + 1, ts => do
    let (c, ts) ← parseChain n 0 ts
    match ts with
    | t :: rest =>
      if t.isOperator "?" then
        let (a, rest) ← parseCond n rest
        match rest with
        | colon :: rest =>
          if colon.isOperator ":" then
            let (b, rest) ← parseCond n rest
            return (.cond c a b, rest)
          else none
        | [] => none
      else return (c, t :: rest)
    | [] => return (c, [])

/-- An operand and all operators of at least the given power that follow it. -/
def parseChain : Nat → Nat → List Token → Option (Expr × List Token)
  | 0, _, _ => none
  | n + 1, power, ts => do
    let (l, ts) ← parseSigned n ts
    parseOperators n power l ts

def parseOperators : Nat → Nat → Expr → List Token → Option (Expr × List Token)
  | 0, _, _, _ => none
  | n + 1, power, l, ts =>
    match ts with
    | [] => some (l, [])
    | t :: rest =>
      if t.kind = .other then
        match BinaryOp.ofSymbol? t.text with
        | some op =>
          if op.power < power then some (l, ts)
          else do
            let (r, rest) ← parseChain n (op.power + 1) rest
            parseOperators n power (.binary l op r) rest
        | none => some (l, ts)
      else some (l, ts)

def parseSigned : Nat → List Token → Option (Expr × List Token)
  | 0, _ => none
  | n + 1, ts =>
    match ts with
    | [] => none
    | t :: rest =>
      if t.isOperator "-" then do
        let (e, rest) ← parseSigned n rest
        return (.unary .neg e, rest)
      else if t.isOperator "~" then do
        let (e, rest) ← parseSigned n rest
        return (.unary .bitNot e, rest)
      else if t.isOperator "!" then do
        let (e, rest) ← parseSigned n rest
        return (.unary .logicalNot e, rest)
      else if t.isOperator "+" then parseSigned n rest
      else parsePrimary n (t :: rest)

def parsePrimary : Nat → List Token → Option (Expr × List Token)
  | 0, _ => none
  | _ + 1, [] => none
  | n + 1, t :: rest =>
    match t.kind with
    | .number => do
      let v ← Numeral.literal? t.text
      return (.num v, rest)
    | .char => do
      let c ← charLiteral? t.text
      return (.lit (.char c), rest)
    | .ident => some (.ident t.text, rest)
    | .lparen => do
      let (e, rest) ← parseCond n rest
      match rest with
      | close :: rest => if close.kind = .rparen then return (e, rest) else none
      | [] => none
    | _ => none

end

/-- The expression that all the tokens make up. Every call of the parser takes a token or goes one level down, from a
conditional over an operator chain and a signed operand to a primary, so four levels a token bound the recursion. -/
def ofTokens? (ts : List Token) : Option Expr :=
  match parseCond (4 * ts.length + 4) ts with
  | some (e, []) => some e
  | _ => none

/-- The expression that a text is, nothing left over. -/
def parse? (text : String) : Option Expr := ofTokens? (Token.tokenize text)

end Devicetree.Expr
