import Stencil.Text.Bytes
import Stencil.Markup.Attribute

/-!
# Pieces of a template

A template is a sequence of pieces, and `render` writes them back: text, a `<` that opens no tag,
a name cut short by another `<`, and opening tags with all their blanks.

* `Piece`, `OpeningTag`, `AttributeText`   the pieces as they are written;
* `render`                                 the text of a list of pieces;
* `tagsFrom`                               the opening tags with byte offsets, as `ScannedTag`.
-/

namespace Stencil.Markup

open Stencil.Text

/-! ## written forms -/

/-- `=` and a value: the blanks on both sides of the `=` and the value with its quotes -/
structure ValueText where
  before : List Char
  after : List Char
  quoted : List Char
  deriving DecidableEq, Repr

def ValueText.render (v : ValueText) : List Char := v.before ++ '=' :: (v.after ++ v.quoted)

/-- an attribute with the blanks in front of it -/
structure AttributeText where
  lead : List Char
  key : List Char
  value : Option ValueText
  deriving DecidableEq, Repr

namespace AttributeText

def render (a : AttributeText) : List Char :=
  a.lead ++ (a.key ++ (a.value.elim [] ValueText.render))

def attr (a : AttributeText) : Attribute where
  key := String.ofList a.key
  value := a.value.map fun v => String.ofList v.quoted

end AttributeText

/-- the character that ends an attribute list -/
inductive Closer where
  | slash
  | angle
  deriving DecidableEq, Repr

def Closer.char : Closer → Char
  | .slash => '/'
  | .angle => '>'

/-- an opening tag from its `<` to the character that ends its attribute list -/
structure OpeningTag where
  name : List Char
  attributes : List AttributeText
  trail : List Char
  closer : Closer
  deriving DecidableEq, Repr

namespace OpeningTag

def render (t : OpeningTag) : List Char :=
  '<' :: (t.name ++ (t.attributes.flatMap AttributeText.render ++ (t.trail ++ [t.closer.char])))

def tagName (t : OpeningTag) : String := String.ofList t.name

/-- the attributes of the tag by key -/
def attributeMap (t : OpeningTag) : Attributes :=
  Attributes.ofList (t.attributes.map AttributeText.attr)

end OpeningTag

inductive Piece where
  /-- a run of characters other than `<` -/
  | text (run : List Char)
  /-- a `<` with no name behind it -/
  | lone
  /-- `<` and a name that another `<` cuts short -/
  | broken (name : List Char)
  | tag (t : OpeningTag)
  deriving DecidableEq, Repr

def Piece.render : Piece → List Char
  | .text run => run
  | .lone => ['<']
  | .broken name => '<' :: name
  | .tag t => t.render

def render (ps : List Piece) : List Char := ps.flatMap Piece.render

theorem render_nil : render [] = [] := rfl
theorem render_cons (p : Piece) (ps : List Piece) : render (p :: ps) = p.render ++ render ps := rfl
theorem render_append (ps qs : List Piece) : render (ps ++ qs) = render ps ++ render qs := by
  simp [render, List.flatMap_append]

/-! ## offsets -/

/-- an attribute with the byte offsets of its text, the blanks in front included -/
structure SpannedAttribute where
  attr : Attribute
  start : Nat
  stop : Nat
  deriving DecidableEq, Repr

/-- an opening tag with the byte offset right behind its name -/
structure ScannedTag where
  name : String
  insertAt : Nat
  attributes : List SpannedAttribute
  deriving DecidableEq, Repr

def ScannedTag.attributeMap (t : ScannedTag) : Attributes :=
  Attributes.ofList (t.attributes.map SpannedAttribute.attr)

/-- each attribute starts where the text before it ends -/
def spannedFrom (offset : Nat) : List AttributeText → List SpannedAttribute
  | [] => []
  | a :: r =>
    let stop := offset + bytes a.render
    ⟨a.attr, offset, stop⟩ :: spannedFrom stop r

/-- an opening tag that starts at byte `offset` -/
def OpeningTag.scanned (offset : Nat) (t : OpeningTag) : ScannedTag :=
  let insertAt := offset + 1 + bytes t.name
  ⟨t.tagName, insertAt, spannedFrom insertAt t.attributes⟩

/-- the opening tags of pieces that start at byte `offset` -/
def tagsFrom (offset : Nat) : List Piece → List ScannedTag
  | [] => []
  | .tag t :: r => t.scanned offset :: tagsFrom (offset + bytes t.render) r
  | p :: r => tagsFrom (offset + bytes p.render) r

end Stencil.Markup
