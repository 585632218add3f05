import Devicetree.Identifier
import Devicetree.Table
import Devicetree.Text

namespace Devicetree

inductive PropertyKind where
  | int
  | array
  | uint8Array
  | string
  | stringArray
  | boolean
  | phandle
  | phandles
  | phandleArray
  | path
  | compound
deriving DecidableEq, Repr, Inhabited

namespace PropertyKind

def word : PropertyKind → String
  | int => "int"
  | array => "array"
  | uint8Array => "uint8-array"
  | string => "string"
  | stringArray => "string-array"
  | boolean => "boolean"
  | phandle => "phandle"
  | phandles => "phandles"
  | phandleArray => "phandle-array"
  | path => "path"
  | compound => "compound"

def all : List PropertyKind :=
  [int, array, uint8Array, string, stringArray, boolean, phandle, phandles, phandleArray, path, compound]

def ofWord? (w : String) : Option PropertyKind := all.find? fun k => decide (k.word = w)

/-- Values of this kind are lists even when they have one element. -/
def isArray : PropertyKind → Bool
  | array | uint8Array | stringArray | phandles | phandleArray | compound => true
  | int | string | boolean | phandle | path => false

end PropertyKind

inductive EnumValue where
  | int (n : Int64)
  | str (s : String)
deriving DecidableEq, Repr, Inhabited

structure PropertySpec where
  kind : PropertyKind
  enumValues : List EnumValue := []
  specifierSpace : Option String := none
deriving DecidableEq, Repr, Inhabited

def PropertySpec.enumIndex? (spec : PropertySpec) (v : EnumValue) : Option Nat :=
  spec.enumValues.findIdx? fun w => decide (w = v)

/-- What a binding says of a node. `bus` is the bus that the node offers its children, `onBus` the one
that it must sit on; a bus may dictate the type of the children on it. -/
inductive NodeType where
  | mk (compatible onBus bus : Option String) (properties : Table String PropertySpec)
      (cells : Table String (List String)) (childTypes : Table String NodeType)
deriving Repr

namespace NodeType

instance : Inhabited NodeType := ⟨.mk none none none {} {} {}⟩

def compatible : NodeType → Option String
  | mk c _ _ _ _ _ => c

def onBus : NodeType → Option String
  | mk _ o _ _ _ _ => o

def bus : NodeType → Option String
  | mk _ _ b _ _ _ => b

def properties : NodeType → Table String PropertySpec
  | mk _ _ _ ps _ _ => ps

def cells : NodeType → Table String (List String)
  | mk _ _ _ _ cs _ => cs

def childTypes : NodeType → Table String NodeType
  | mk _ _ _ _ _ ts => ts

def cellNames? (t : NodeType) (space : String) : Option (List String) := t.cells.get? space

def property? (t : NodeType) (name : String) : Option PropertySpec := t.properties.get? name

def propertyByIdent? (t : NodeType) (ident : String) : Option (String × PropertySpec) :=
  t.properties.entries.find? fun e => decide (Identifier.ofName e.1 = ident)

def childType? (t : NodeType) (bus : String) : Option NodeType := t.childTypes.get? bus

end NodeType

/-- All bindings, in the order in which they were added. -/
structure Bindings where
  types : List NodeType := []
deriving Repr, Inhabited

namespace Bindings

/-- Adds a binding; one without a `compatible` is never found and not kept. -/
def add (b : Bindings) (t : NodeType) : Bindings :=
  if t.compatible.isSome then ⟨b.types ++ [t]⟩ else b

def ofList (types : List NodeType) : Bindings := types.foldl add {}

def size (b : Bindings) : Nat := b.types.length

def isEmpty (b : Bindings) : Bool := b.types.isEmpty

/-- The binding of one `compatible` string: the first for the bus, else the first for no bus. -/
def find? (b : Bindings) (bus : Option String) (compatible : String) : Option NodeType :=
  let candidates := b.types.filter fun t => decide (t.compatible = some compatible)
  (candidates.find? fun t => t.onBus.isSome && decide (t.onBus = bus)) <|>
    candidates.find? fun t => t.onBus.isNone

def resolve? (b : Bindings) (compatibles : List String) (bus : Option String) : Option NodeType :=
  compatibles.findSome? (b.find? bus)

end Bindings

/-- What types nodes, by their `compatible` strings and the bus that their parent offers. -/
structure BindingProvider where
  resolve? : List String → Option String → Option NodeType

def Bindings.provider (b : Bindings) : BindingProvider := ⟨b.resolve?⟩

instance : Coe Bindings BindingProvider := ⟨Bindings.provider⟩

instance : Inhabited BindingProvider := ⟨Bindings.provider {}⟩

/-- A property name without one plural `s` at its end. -/
def singular (property : String) : String :=
  String.ofList ((Text.dropEnd? ['s'] property.toList).getD property.toList)

def specifierSpaceFor (property : String) : String :=
  if property = "gpios" ∨ "-gpios".toList.isSuffixOf property.toList then "gpio"
  else if property = "interrupts-extended" then "interrupt"
  else singular property

def namesPropertyFor (property : String) : String :=
  if property = "interrupts-extended" then "interrupt-names" else singular property ++ "-names"

end Devicetree
