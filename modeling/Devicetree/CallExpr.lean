import Devicetree.Token

namespace Devicetree

/-- A stretch of text between two byte offsets. -/
structure Range where
  start : Nat
  stop : Nat
deriving DecidableEq, Repr, Inhabited

namespace Range

def length (r : Range) : Nat := r.stop - r.start

/-- Both ends count as inside. -/
def contains (r : Range) (offset : Nat) : Bool := decide (r.start ≤ offset ∧ offset ≤ r.stop)

end Range

inductive LeafKind where
  | ident
  | number
  | str
  | raw
deriving DecidableEq, Repr, Inhabited

inductive CallExpr where
  | leaf (kind : LeafKind) (text : String) (range : Range)
  | call (name : String) (args : List CallExpr) (range : Range)
deriving Repr

namespace CallExpr

instance : Inhabited CallExpr := ⟨.leaf .raw "" default⟩

/-- The name of a call, or the text of a leaf. -/
def name : CallExpr → String
  | leaf _ text _ => text
  | call name _ _ => name

def range : CallExpr → Range
  | leaf _ _ range => range
  | call _ _ range => range

def isCall : CallExpr → Bool
  | leaf _ _ _ => false
  | call _ _ _ => true

mutual

def text : CallExpr → String
  | leaf _ text _ => text
  | call name args _ => name ++ "(" ++ ", ".intercalate (texts args) ++ ")"

def texts : List CallExpr → List String
  | [] => []
  | a :: as => a.text :: texts as

end

mutual

def size : CallExpr → Nat
  | leaf _ _ _ => 1
  | call _ args _ => sizes args + 1

def sizes : List CallExpr → Nat
  | [] => 0
  | a :: as => a.size + sizes as

end

/-- A part of an expression in the listing of all parts. Parts are numbered from the outermost one, each
before its arguments. -/
structure Part where
  expr : CallExpr
  parent : Option Nat
  argIndex : Nat
  args : List Nat
deriving Repr, Inhabited

/-- The numbers of arguments when the first one has the number `next`. -/
def argNumbers (next : Nat) : List CallExpr → List Nat
  | [] => []
  | a :: as => next :: argNumbers (next + a.size) as

mutual

def partsFrom (number : Nat) (parent : Option Nat) (argIndex : Nat) : CallExpr → List Part
  | leaf kind text range => [⟨leaf kind text range, parent, argIndex, []⟩]
  | call name args range =>
    ⟨call name args range, parent, argIndex, argNumbers (number + 1) args⟩ ::
      argParts number (number + 1) 0 args

def argParts (parent next argIndex : Nat) : List CallExpr → List Part
  | [] => []
  | a :: as => partsFrom next (some parent) argIndex a ++ argParts parent (next + a.size) (argIndex + 1) as

end

def parts (e : CallExpr) : List Part := partsFrom 0 none 0 e

def part? (e : CallExpr) (i : Nat) : Option CallExpr := e.parts[i]?.map Part.expr

@[simp] theorem part?_zero (e : CallExpr) : e.part? 0 = some e := by
  cases e <;> rfl

/-- Keeps the number of the shorter of two calls, the earlier one if they are equally long. -/
def shorter (best : Option (Nat × Range)) (c : Nat × Range) : Option (Nat × Range) :=
  match best with
  | some b => if c.2.length < b.2.length then some c else some b
  | none => some c

def calls (e : CallExpr) : List (Nat × Range) :=
  (e.parts.zipIdx.filter fun p => p.1.expr.isCall).map fun p => (p.2, p.1.expr.range)

/-- The number of the shortest call around an offset. -/
def innermostCall? (e : CallExpr) (offset : Nat) : Option Nat :=
  ((e.calls.filter fun c => c.2.contains offset).foldl shorter none).map (·.1)

/-- The numbers of the parts around part number `i` of a listing, from that part outward. -/
def enclosing (parts : List Part) (i : Nat) : List Nat :=
  match parts[i]? with
  | none => []
  | some p =>
    i ::
      match p.parent with
      | some q => if q < i then enclosing parts q else []
      | none => []
termination_by i

end CallExpr

end Devicetree
