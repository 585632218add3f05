import Devicetree.Text

namespace Devicetree

/-- How an accessor picks one of several: the first, by a number or by a name in some argument. -/
inductive Selector where
  | first
  | index (arg : Nat)
  | name (arg : Nat)
deriving DecidableEq, Repr, Inhabited

/-- How a text is shown: as a string, as it is, as a token or as a token in upper case. -/
inductive TextStyle where
  | quoted
  | unquoted
  | token
  | upperToken
deriving DecidableEq, Repr, Inhabited

inductive RegPart where
  | address
  | size
deriving DecidableEq, Repr, Inhabited

/-- What an accessor asks for. -/
inductive Form where
  | root
  | path
  | aliasNode
  | nodeLabel
  | child
  | parent
  | grandparent
  | inst
  | driverInst
  | anyOkay
  | chosen
  | bus
  | phandle (pick : Selector)
  | sameNode
  | nodeExists
  | hasChosen
  | onBus
  | hasProperty
  | hasCompatible
  | hasStatus
  | isOkay
  | hasOkay
  | countOkay
  | childCount
  | okayChildCount
  | fullName (style : TextStyle)
  | nodePath
  | property
  | propertyOr
  | element
  | lastElement
  | length
  | lengthOr
  | hasElement
  | hasGroup
  | text (style : TextStyle) (byIndex hasFallback : Bool)
  | enumIndex
  | enumIndexOr
  | enumIndexAt
  | enumIndexAtOr
  | cell
  | cellOr
  | cellAt
  | cellAtOr
  | cellNamed
  | cellNamedOr
  | propertyThrough
  | propertyThroughAt
  | propertyThroughAtOr
  | regCount
  | hasReg
  | reg (part : RegPart) (pick : Selector)
  | irqCount
  | hasIrq
  /-- A cell of an interrupt; its name is an argument, or `irq`. -/
  | irq (pick : Selector) (cell : Option Nat)
deriving DecidableEq, Repr, Inhabited

namespace Form

/-- The forms with a fixed number of arguments, but for those of strings. -/
def vocabulary : List ((String × Nat) × Form) :=
  [(("DT_ROOT", 0), root),
    (("DT_ALIAS", 1), aliasNode),
    (("DT_NODELABEL", 1), nodeLabel),
    (("DT_CHILD", 2), child),
    (("DT_PARENT", 1), parent),
    (("DT_GPARENT", 1), grandparent),
    (("DT_INST", 2), inst),
    (("DT_DRV_INST", 1), driverInst),
    (("DT_COMPAT_GET_ANY_STATUS_OKAY", 1), anyOkay),
    (("DT_CHOSEN", 1), chosen),
    (("DT_BUS", 1), bus),
    (("DT_PHANDLE", 2), phandle .first),
    (("DT_PHANDLE", 3), phandle (.index 2)),
    (("DT_PHANDLE_BY_IDX", 3), phandle (.index 2)),
    (("DT_PHANDLE_BY_NAME", 3), phandle (.name 2)),
    (("DT_SAME_NODE", 2), sameNode),
    (("DT_NODE_EXISTS", 1), nodeExists),
    (("DT_HAS_CHOSEN", 1), hasChosen),
    (("DT_ON_BUS", 2), onBus),
    (("DT_NODE_HAS_PROP", 2), hasProperty),
    (("DT_NODE_HAS_COMPAT", 2), hasCompatible),
    (("DT_NODE_HAS_STATUS", 2), hasStatus),
    (("DT_NODE_HAS_STATUS_OKAY", 1), isOkay),
    (("DT_HAS_COMPAT_STATUS_OKAY", 1), hasOkay),
    (("DT_NUM_INST_STATUS_OKAY", 1), countOkay),
    (("DT_CHILD_NUM", 1), childCount),
    (("DT_CHILD_NUM_STATUS_OKAY", 1), okayChildCount),
    (("DT_NODE_FULL_NAME", 1), fullName .quoted),
    (("DT_NODE_FULL_NAME_UNQUOTED", 1), fullName .unquoted),
    (("DT_NODE_FULL_NAME_TOKEN", 1), fullName .token),
    (("DT_NODE_FULL_NAME_UPPER_TOKEN", 1), fullName .upperToken),
    (("DT_NODE_PATH", 1), nodePath),
    (("DT_PROP", 2), property),
    (("DT_PROP_OR", 3), propertyOr),
    (("DT_PROP_BY_IDX", 3), element),
    (("DT_PROP_LAST", 2), lastElement),
    (("DT_PROP_LEN", 2), length),
    (("DT_PROP_LEN_OR", 3), lengthOr),
    (("DT_PROP_HAS_IDX", 3), hasElement),
    (("DT_PROP_HAS_NAME", 3), hasGroup),
    (("DT_ENUM_IDX", 2), enumIndex),
    (("DT_ENUM_IDX_OR", 3), enumIndexOr),
    (("DT_ENUM_IDX_BY_IDX", 3), enumIndexAt),
    (("DT_ENUM_IDX_BY_IDX_OR", 4), enumIndexAtOr),
    (("DT_PHA", 3), cell),
    (("DT_PHA_OR", 4), cellOr),
    (("DT_PHA_BY_IDX", 4), cellAt),
    (("DT_PHA_BY_IDX_OR", 5), cellAtOr),
    (("DT_PHA_BY_NAME", 4), cellNamed),
    (("DT_PHA_BY_NAME_OR", 5), cellNamedOr),
    (("DT_PROP_BY_PHANDLE", 3), propertyThrough),
    (("DT_PROP_BY_PHANDLE_IDX", 4), propertyThroughAt),
    (("DT_PROP_BY_PHANDLE_IDX_OR", 5), propertyThroughAtOr),
    (("DT_NUM_REGS", 1), regCount),
    (("DT_REG_HAS_IDX", 2), hasReg),
    (("DT_REG_ADDR", 1), reg .address .first),
    (("DT_REG_SIZE", 1), reg .size .first),
    (("DT_REG_ADDR_BY_IDX", 2), reg .address (.index 1)),
    (("DT_REG_SIZE_BY_IDX", 2), reg .size (.index 1)),
    (("DT_REG_ADDR_BY_NAME", 2), reg .address (.name 1)),
    (("DT_REG_SIZE_BY_NAME", 2), reg .size (.name 1)),
    (("DT_NUM_IRQS", 1), irqCount),
    (("DT_IRQ_HAS_IDX", 2), hasIrq),
    (("DT_IRQN", 1), irq .first none),
    (("DT_IRQ", 2), irq .first (some 1)),
    (("DT_IRQ_BY_IDX", 3), irq (.index 1) (some 2)),
    (("DT_IRQ_BY_NAME", 3), irq (.name 1) (some 2))]

/-- A name without an ending, and whether it had it. -/
def cutEnd (ending name : List Char) : List Char × Bool :=
  match Text.dropEnd? ending name with
  | some rest => (rest, true)
  | none => (name, false)

/-- The form of a string accessor, by its name after `DT_STRING_`: a style, then `_BY_IDX` if an argument picks one of
several strings, then `_OR` if there is an argument to fall back on. -/
def ofStringName? (name : List Char) (arity : Nat) : Option Form :=
  let (name, hasFallback) := cutEnd "_OR".toList name
  let (name, byIndex) := cutEnd "_BY_IDX".toList name
  if arity = 2 + byIndex.toNat + hasFallback.toNat then
    match String.ofList name with
    | "TOKEN" => some (text .token byIndex hasFallback)
    | "UPPER_TOKEN" => some (text .upperToken byIndex hasFallback)
    | "UNQUOTED" => some (text .unquoted byIndex hasFallback)
    | _ => none
  else none

/-- The form that a name with so many arguments stands for. A path takes any number of them but none. -/
def ofCall? (name : String) (arity : Nat) : Option Form :=
  if name = "DT_PATH" then if 0 < arity then some path else none
  else
    match Text.dropFront? "DT_STRING_".toList name.toList with
    | some rest => ofStringName? rest arity
    | none => (vocabulary.find? fun e => decide (e.1 = (name, arity))).map (·.2)

end Form

end Devicetree
