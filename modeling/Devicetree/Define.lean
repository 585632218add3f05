import Devicetree.Table

namespace Devicetree

structure FunctionDefine where
  params : List String
  body : String
deriving DecidableEq, Repr, Inhabited

/-- All defines in force; plain and parametrised ones do not share names. -/
structure Defines where
  objects : Table String String := {}
  functions : Table String FunctionDefine := {}
deriving Repr, Inhabited

namespace Defines

def define (d : Defines) (name body : String) : Defines :=
  { d with objects := d.objects.insert name body }

def defineFunction (d : Defines) (name : String) (params : List String) (body : String) : Defines :=
  { d with functions := d.functions.insert name ⟨params, body⟩ }

def object? (d : Defines) (name : String) : Option String := d.objects.get? name

def function? (d : Defines) (name : String) : Option FunctionDefine := d.functions.get? name

def size (d : Defines) : Nat := d.objects.size + d.functions.size

def isEmpty (d : Defines) : Bool := d.objects.isEmpty && d.functions.isEmpty

end Defines

end Devicetree
