import Devicetree.Token

namespace Devicetree.Token

def isSpace (c : Char) : Bool := c = ' ' || c = '\t' || c = '\r' || c = '\n'

def isIdentStart (c : Char) : Bool := c.isAlpha || c = '_'

def isIdentRest (c : Char) : Bool := c.isAlphanum || c = '_'

/-- The body of a string after its opening quote: how many characters are well formed, and whether the
closing quote follows them. A backslash needs a character after it on the same line. -/
def stringBody : List Char → Nat × Bool
  | [] => (0, false)
  | c :: cs =>
    if c = '"' then (0, true)
    else if c = '\\' then
      match cs with
      | [] => (0, false)
      | e :: rest =>
        if e = '\n' then (0, false)
        else
          let (n, closed) := stringBody rest
          (n + 2, closed)
    else
      let (n, closed) := stringBody cs
      (n + 1, closed)

/-- The body of a block comment: how many characters are well formed, and whether the closing mark follows
them. A star always takes the next character with it, so only a star that starts such a pair can close. -/
def commentBody : List Char → Nat × Bool
  | [] => (0, false)
  | c :: cs =>
    if c = '*' then
      match cs with
      | [] => (0, false)
      | e :: rest =>
        if e = '/' then (0, true)
        else
          let (n, closed) := commentBody rest
          (n + 2, closed)
    else
      let (n, closed) := commentBody cs
      (n + 1, closed)

def isPairOperator (c d : Char) : Bool :=
  (c = '<' && (d = '<' || d = '=')) || (c = '>' && (d = '>' || d = '=')) ||
    (c = '=' && d = '=') || (c = '!' && d = '=') || (c = '&' && d = '&') || (c = '|' && d = '|')

/-- The class of a token that starts with a slash, and how many characters it takes of the rest. -/
def slashLexeme : List Char → Kind × Nat
  | '/' :: cs => (.comment, (cs.takeWhile (· ≠ '\n')).length + 1)
  | '*' :: cs =>
    let (n, closed) := commentBody cs
    if closed then (.comment, n + 3) else (.other, n + 1)
  | _ => (.other, 0)

def quoteLexeme : List Char → Kind × Nat
  | '\\' :: e :: '\'' :: _ => if e = '\n' then (.other, 0) else (.char, 3)
  | c :: '\'' :: _ => if c = '\'' ∨ c = '\\' then (.other, 0) else (.char, 2)
  | _ => (.other, 0)

/-- The class of the token that starts with `c` before `cs`, and how many characters of `cs` belong to it. -/
def lexeme (c : Char) (cs : List Char) : Kind × Nat :=
  if isSpace c then (.blank, (cs.takeWhile isSpace).length)
  else if isIdentStart c then (.ident, (cs.takeWhile isIdentRest).length)
  else if c.isDigit then (.number, (cs.takeWhile isIdentRest).length)
  else if c = '(' then (.lparen, 0)
  else if c = ')' then (.rparen, 0)
  else if c = ',' then (.comma, 0)
  else if c = '/' then slashLexeme cs
  else if c = '\'' then quoteLexeme cs
  else if c = '"' then
    let (n, closed) := stringBody cs
    if closed then (.str, n + 1) else (.other, n)
  else
    match cs with
    | d :: _ => if isPairOperator c d then (.other, 1) else (.other, 0)
    | [] => (.other, 0)

def scanFrom (offset : Nat) : List Char → List Token
  | [] => []
  | c :: cs =>
    let lex := lexeme c cs
    let text := c :: cs.take lex.2
    ⟨lex.1, String.ofList text, offset⟩ ::
      scanFrom (offset + Text.byteLength text) (cs.drop lex.2)
termination_by cs => cs.length

/-- All tokens of a text, blanks and comments included. -/
def scan (text : String) : List Token := scanFrom 0 text.toList

def tokenize (text : String) : List Token := (scan text).filter fun t => !t.kind.isTrivia

end Devicetree.Token
