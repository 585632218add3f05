namespace Devicetree.Identifier

def ofNameChar (c : Char) : Char :=
  if c = '@' ∨ c = ',' ∨ c = '-' then '_' else c.toLower

/-- The identifier of a node or property name: lower case, with `@`, `,` and `-` written `_`. -/
def ofName (name : String) : String :=
  String.ofList (name.toList.map ofNameChar)

/-- The token of a string value: all but ASCII letters and digits is written `_`. -/
def token (text : String) : String :=
  String.ofList (text.toList.map fun c => if c.isAlphanum then c else '_')

def upperToken (text : String) : String :=
  String.ofList ((token text).toList.map Char.toUpper)

end Devicetree.Identifier
