import Devicetree.CallExpr.Parse
import Devicetree.CallTree

namespace Devicetree.CallTree

structure State where
  rest : List Token
  tree : CallTree
deriving Repr, Inhabited

def rawArg (source : List Char) (parent argIndex : Nat) (s : State) : Option Nat × State :=
  match CallExpr.rawArg? source s.rest with
  | none => (none, s)
  | some (e, rest) =>
    (some s.tree.size, ⟨rest, s.tree.push (.leaf .raw) e.name (some parent) argIndex e.range⟩)

/-- An argument after the attempt to read it as an expression. Unless that got to the end of the argument, the tokens
are taken back, all nodes since then are dropped, and the argument is raw text. -/
def settleArg (source : List Char) (parent argIndex : Nat) (before : State) :
    Option Nat × State → Option Nat × State
  | (some number, after) =>
    if after.rest.head?.any CallExpr.endsArg then (some number, after)
    else rawArg source parent argIndex ⟨before.rest, after.tree.truncate before.tree.size⟩
  | (none, after) => rawArg source parent argIndex ⟨before.rest, after.tree.truncate before.tree.size⟩

mutual

/-- Pushes one expression and gives its number. Where there is none, what has been pushed of it is left over. -/
def parseExpr (source : List Char) : Nat → Option Nat → Nat → State → Option Nat × State
  | 0, _, _, s => (none, s)
  | n + 1, parent, argIndex, s =>
    match s.rest with
    | [] => (none, s)
    | t :: ts =>
      match CallExpr.leafKind? t.kind with
      | none => (none, s)
      | some kind =>
        let number := s.tree.size
        if CallExpr.startsCall (t :: ts) then
          let tree := s.tree.push .call t.text parent argIndex ⟨t.offset, t.offset⟩
          match ts.tail with
          | [] => (none, ⟨[], tree⟩)
          | q :: after =>
            if q.kind = .rparen then (some number, ⟨after, tree.setRange number ⟨t.offset, q.stop⟩⟩)
            else parseArgs source n number t.offset [] ⟨q :: after, tree⟩
        else (some number, ⟨ts, s.tree.push (.leaf kind) t.text parent argIndex ⟨t.offset, t.stop⟩⟩)

/-- Pushes the arguments of the call `number` that follow those in `args`, up to its closing parenthesis. Only then the
call gets its arguments and its range. -/
def parseArgs (source : List Char) : Nat → (number start : Nat) → (args : List Nat) → State → Option Nat × State
  | 0, _, _, _, s => (none, s)
  | n + 1, number, start, args, s =>
    match settleArg source number args.length s (parseExpr source n (some number) args.length s) with
    | (none, s) => (none, s)
    | (some arg, s) =>
      match s.rest with
      | [] => (none, s)
      | t :: after =>
        match t.kind with
        | .comma => parseArgs source n number start (args ++ [arg]) ⟨after, s.tree⟩
        | .rparen =>
          (some number, ⟨after, (s.tree.setArgs number (args ++ [arg])).setRange number ⟨start, t.stop⟩⟩)
        | _ => (none, s)

end

/-- The tree of the expression at the front of a text; what follows it is ignored. -/
def parse? (text : String) : Option CallTree :=
  let tokens := Token.tokenize text
  match parseExpr text.toList (2 * tokens.length + 2) none 0 ⟨tokens, {}⟩ with
  | (some _, s) => some s.tree
  | (none, _) => none

end Devicetree.CallTree
