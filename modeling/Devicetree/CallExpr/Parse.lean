import Devicetree.CallExpr
import Devicetree.Token.Scan

namespace Devicetree.CallExpr

/-- Tokens up to the first comma or closing parenthesis outside the parentheses that they open, and the
rest. -/
def splitRaw : Nat → List Token → List Token × List Token
  | _, [] => ([], [])
  | depth, t :: ts =>
    match t.kind, depth with
    | .comma, 0 | .rparen, 0 => ([], t :: ts)
    | .lparen, d =>
      let (taken, rest) := splitRaw (d + 1) ts
      (t :: taken, rest)
    | .rparen, d + 1 =>
      let (taken, rest) := splitRaw d ts
      (t :: taken, rest)
    | _, d =>
      let (taken, rest) := splitRaw d ts
      (t :: taken, rest)

/-- A raw argument: the text from its first to its last token, without blanks at the ends. -/
def rawArg? (source : List Char) (ts : List Token) : Option (CallExpr × List Token) :=
  match ts with
  | [] => none
  | t :: _ =>
    let (taken, rest) := splitRaw 0 ts
    let range : Range := ⟨t.offset, (taken.getLast?.map Token.stop).getD t.offset⟩
    let text := Text.trim (Text.slice source range.start range.stop)
    some (.leaf .raw (String.ofList text) range, rest)

def endsArg (t : Token) : Bool := decide (t.kind = .comma ∨ t.kind = .rparen)

def leafKind? : Token.Kind → Option LeafKind
  | .ident => some .ident
  | .number | .char => some .number
  | .str => some .str
  | _ => none

mutual

def parseExpr (source : List Char) : Nat → List Token → Option (CallExpr × List Token)
  | 0, _ => none
  | _ + 1, [] => none
  | n + 1, t :: ts => do
    let kind ← leafKind? t.kind
    let leaf := CallExpr.leaf kind t.text ⟨t.offset, t.stop⟩
    if kind ≠ .ident then return (leaf, ts)
    match ts with
    | [] => return (leaf, [])
    | p :: rest =>
      if p.kind ≠ .lparen then return (leaf, ts)
      match rest with
      | [] => none
      | q :: after =>
        if q.kind = .rparen then return (.call t.text [] ⟨t.offset, q.stop⟩, after)
        let (args, stop, after) ← parseArgs source n rest
        return (.call t.text args ⟨t.offset, stop⟩, after)

/-- The arguments of a call up to its closing parenthesis, where that ends, and the tokens after it. -/
def parseArgs (source : List Char) : Nat → List Token → Option (List CallExpr × Nat × List Token)
  | 0, _ => none
  | n + 1, ts => do
    let (arg, rest) ← match parseExpr source n ts with
      | some (e, t :: rest) => if endsArg t then some (e, t :: rest) else rawArg? source ts
      | _ => rawArg? source ts
    match rest with
    | [] => none
    | t :: after =>
      match t.kind with
      | .comma => do
        let (args, stop, after) ← parseArgs source n after
        return (arg :: args, stop, after)
      | .rparen => return ([arg], t.stop, after)
      | _ => none

end

/-- The expression at the front of the tokens of a text, and the tokens after it. A call takes its name and its opening
parenthesis before its arguments, and a comma stands between two arguments, so two levels a token bound the recursion. -/
def parseTokens? (source : List Char) (ts : List Token) : Option (CallExpr × List Token) :=
  parseExpr source (2 * ts.length + 2) ts

/-- The expression at the front of a text; what follows it is ignored. -/
def parse? (text : String) : Option CallExpr :=
  (parseTokens? text.toList (Token.tokenize text)).map (·.1)

def startsCall : List Token → Bool
  | t :: p :: _ => decide (t.kind = .ident ∧ p.kind = .lparen)
  | _ => false

/-- The first call at the top level of the tokens that reaches around an offset. -/
def outermostAt? (source : List Char) (offset : Nat) : List Token → Option CallExpr
  | [] => none
  | t :: ts =>
    if startsCall (t :: ts) && decide (t.offset ≤ offset) then
      match parseTokens? source (t :: ts) with
      | none => outermostAt? source offset ts
      | some (e, rest) =>
        if e.range.contains offset then some e
        else if rest.length ≤ ts.length then outermostAt? source offset rest
        else none
    else outermostAt? source offset ts
termination_by ts => ts.length

/-- The outermost and the innermost call around an offset of a text; the latter by its number. -/
def callAt? (source : String) (offset : Nat) : Option (CallExpr × Nat) := do
  let e ← outermostAt? source.toList offset (Token.tokenize source)
  let number ← e.innermostCall? offset
  return (e, number)

end Devicetree.CallExpr
