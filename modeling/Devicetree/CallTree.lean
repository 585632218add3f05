import Devicetree.CallExpr

namespace Devicetree

inductive CallKind where
  | call
  | leaf (kind : LeafKind)
deriving DecidableEq, Repr, Inhabited

structure CallNode where
  kind : CallKind
  /-- The name of a call, or the text of a leaf. -/
  name : String
  args : List Nat
  parent : Option Nat
  argIndex : Nat
  range : Range
deriving DecidableEq, Repr, Inhabited

/-- A call expression as a table of nodes, in which every node has its place as its number. -/
structure CallTree where
  nodes : List CallNode := []
deriving DecidableEq, Repr, Inhabited

namespace CallTree

variable (t : CallTree)

def size : Nat := t.nodes.length

/-- Adds a node without arguments, which gets the number `t.size`. -/
def push (kind : CallKind) (name : String) (parent : Option Nat) (argIndex : Nat) (range : Range) : CallTree :=
  ⟨t.nodes ++ [⟨kind, name, [], parent, argIndex, range⟩]⟩

def setArgs (number : Nat) (args : List Nat) : CallTree := ⟨t.nodes.modify number fun n => { n with args }⟩

def setRange (number : Nat) (range : Range) : CallTree := ⟨t.nodes.modify number fun n => { n with range }⟩

/-- Drops all nodes from the number `size` on. -/
def truncate (size : Nat) : CallTree := ⟨t.nodes.take size⟩

def calls : List (Nat × Range) :=
  (t.nodes.zipIdx.filter fun n => decide (n.1.kind = .call)).map fun n => (n.2, n.1.range)

def innermostCall? (offset : Nat) : Option Nat :=
  ((t.calls.filter fun c => c.2.contains offset).foldl CallExpr.shorter none).map (·.1)

end CallTree

end Devicetree
