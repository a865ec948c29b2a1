import Stencil.Markup.Scan

/-!
# Editing a template

An edit asks about every tag and every attribute of a template, in document order, and keeps all
text for which there is no answer.

* `Part`      what is asked about: a tag at the point right behind its name, or one attribute;
* `edit`      the text of pieces with the answers put in.

The answer for a tag goes right behind its name.  The answer for an attribute takes the place of
the attribute and of the blanks in front of it.  All parts of a tag see the attributes that it has
in the template.
-/

namespace Stencil.Markup

inductive Part where
  /-- the point right behind the name of a tag -/
  | tag (name : String) (attributes : Attributes)
  /-- one attribute of a tag -/
  | attr (tag : String) (attr : Attribute) (attributes : Attributes)
  deriving DecidableEq

namespace Part

/-- the name of the tag that the part belongs to -/
def tagName : Part → String
  | .tag name _ => name
  | .attr owner _ _ => owner

def attributes : Part → Attributes
  | .tag _ attributes => attributes
  | .attr _ _ attributes => attributes

def attr? : Part → Option Attribute
  | .tag _ _ => none
  | .attr _ a _ => some a

def isTag : Part → Bool
  | .tag _ _ => true
  | .attr _ _ _ => false

end Part

/-! ## edits -/

variable {m : Type → Type} [Monad m] (ask : Part → m (Option String))

/-- an attribute of the given tag, or the answer in its place -/
def AttributeText.edit (t : OpeningTag) (a : AttributeText) : m (List Char) := do
  let answer ← ask (.attr t.tagName a.attr t.attributeMap)
  pure (answer.elim a.render String.toList)

def OpeningTag.edit (t : OpeningTag) : m (List Char) := do
  let inserted ← ask (.tag t.tagName t.attributeMap)
  let attributes ← t.attributes.mapM (AttributeText.edit ask t)
  pure ('<' :: (t.name ++ (inserted.elim [] String.toList ++
    (attributes.flatten ++ (t.trail ++ [t.closer.char])))))

def Piece.edit : Piece → m (List Char)
  | .tag t => t.edit ask
  | p => pure p.render

/-- the text of pieces with the answers put in -/
def edit (ps : List Piece) : m String := do
  let texts ← ps.mapM (Piece.edit ask)
  pure (String.ofList texts.flatten)

end Stencil.Markup
