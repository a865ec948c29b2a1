import Stencil.Dict

/-!
# Attributes of a tag

* `Attribute`            a key with its value, quotes included, or without one;
* `Attribute.unquoted`   the value between its quotes;
* `Attributes`           the attributes of one tag by key: the first occurrence of a key fixes
                         its place, the last one its value.
-/

namespace Stencil.Markup

structure Attribute where
  key : String
  value : Option String
  deriving DecidableEq, Repr

/-- a text without the quotes around it, if it has both -/
def unquote : List Char → List Char
  | [] => []
  | c :: r => if c = '"' ∧ r.getLast? = some '"' then r.dropLast else c :: r

theorem unquote_quoted (s : List Char) : unquote ('"' :: (s ++ ['"'])) = s := by
  simp [unquote]

namespace Attribute

def unquoted (a : Attribute) : Option String :=
  a.value.map fun v => String.ofList (unquote v.toList)

/-- an event handler: a key that starts with `@` or with `v-on:` -/
def isHandler (a : Attribute) : Bool :=
  "@".toList.isPrefixOf a.key.toList || "v-on:".toList.isPrefixOf a.key.toList

end Attribute

/-! ## the attributes of a tag -/

/-- attributes by key, in order of the first occurrence of each key -/
abbrev Attributes := Dict (Option String)

namespace Attributes

def insert (m : Attributes) (a : Attribute) : Attributes := Dict.insert m a.key a.value

def insertAll (m : Attributes) (l : List Attribute) : Attributes := l.foldl Attributes.insert m

def ofList (l : List Attribute) : Attributes := Attributes.insertAll Dict.empty l

def toList (m : Attributes) : List Attribute := m.entries.map fun e => ⟨e.1, e.2⟩

def find? (m : Attributes) (key : String) : Option Attribute :=
  (m.get? key).map fun v => ⟨key, v⟩

/-- the value of `key` between its quotes -/
def valueOf (m : Attributes) (key : String) : Option String :=
  (Attributes.find? m key).bind Attribute.unquoted

end Attributes

end Stencil.Markup
