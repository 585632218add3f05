import Devicetree.Numeral

namespace Devicetree

/-- A node's name and the cells of its unit address. -/
structure NodeName where
  name : String := ""
  address : Option (List UInt64) := none
deriving DecidableEq, Repr, Inhabited

namespace NodeName

/-- Drops every `0x` in front. -/
def dropHexMarks : List Char → List Char
  | '0' :: 'x' :: cs => dropHexMarks cs
  | cs => cs

def cell? (cs : List Char) : Option UInt64 := Numeral.word? 16 (dropHexMarks cs)

/-- Reads `name@a,b`. A text without `@`, or with a unit that is not made of hexadecimal cells, is all
name. -/
def parse (text : String) : NodeName :=
  let cs := text.toList
  match cs.dropWhile (· ≠ '@') with
  | [] => ⟨text, none⟩
  | _ :: unit =>
    match (Text.splitAt ',' unit).mapM cell? with
    | some cells => ⟨String.ofList (cs.takeWhile (· ≠ '@')), some cells⟩
    | none => ⟨text, none⟩

/-- The name as written in paths, with hexadecimal address cells. -/
def fullName (n : NodeName) : String :=
  match n.address with
  | some cells => n.name ++ "@" ++ ",".intercalate (cells.map fun c => Text.hex c.toNat)
  | none => n.name

end NodeName

end Devicetree
