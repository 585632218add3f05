import Devicetree.Position
import Devicetree.Table

namespace Devicetree

/-- A hasher takes in bytes and numbers, and what it took in comes to one word. -/
structure Hasher where
  State : Type
  start : State
  write : State → List UInt8 → State
  writeNumber : State → Nat → State
  finish : State → UInt64

/-- The digest of a content's bytes and of their number. Contents may share a digest. -/
def Hasher.digest (h : Hasher) (content : String) : UInt64 :=
  let bytes := content.toUTF8.data.toList
  h.finish (h.writeNumber (h.write h.start bytes) bytes.length)

/-- For each file the digest of its content when it was last parsed, and the outcome; and how often asking
for a file's parse found it. -/
structure ParseCache (hasher : Hasher) (α : Type) where
  entries : Table FileId (UInt64 × α) := {}
  hits : Nat := 0
  misses : Nat := 0
deriving Repr

namespace ParseCache

variable {hasher : Hasher} {α : Type}

instance : Inhabited (ParseCache hasher α) := ⟨{}⟩

/-- The outcome for a file while its content has the digest it was parsed with. -/
def get? (c : ParseCache hasher α) (file : FileId) (content : String) : Option α :=
  match c.entries.get? file with
  | some (digest, value) => if digest = hasher.digest content then some value else none
  | none => none

def insert (c : ParseCache hasher α) (file : FileId) (content : String) (value : α) : ParseCache hasher α :=
  { c with entries := c.entries.insert file (hasher.digest content, value) }

/-- The outcome for a content, parsed now if it is not known. What the parser does besides comes about only
when it is run. -/
def getOrParse {m : Type → Type} [Monad m] (c : ParseCache hasher α) (file : FileId) (content : String)
    (parse : String → m α) : m (α × ParseCache hasher α) :=
  match c.get? file content with
  | some value => pure (value, { c with hits := c.hits + 1 })
  | none => do
    let value ← parse content
    return (value, { c.insert file content value with misses := c.misses + 1 })

def invalidate (c : ParseCache hasher α) (file : FileId) : Bool × ParseCache hasher α :=
  (c.entries.contains file, { c with entries := c.entries.erase file })

def clear (c : ParseCache hasher α) : ParseCache hasher α := { c with entries := {} }

def size (c : ParseCache hasher α) : Nat := c.entries.size

end ParseCache

end Devicetree
