import Stencil.Dict
import Stencil.Text.Blank
import Stencil.Markup.Edit

/-!
# Rules

A rule changes the opening tags it applies to: it inserts text behind the name, removes or renames
attributes, and sees to it that a class is there.

* `Rule`           the actions, all of them optional;
* `Rule.check`     why a rule is of no use;
* `Rule.onTag`     the text that a rule inserts into a tag;
* `Rule.onAttr`    the text that a rule puts in place of an attribute;
* `Rule.answer`    either of them, for the tags that the rule applies to.
-/

namespace Stencil

open Stencil.Text Stencil.Markup

structure Rule where
  /-- the tags that the rule applies to; all tags if there are none -/
  tags : List String
  /-- text to insert behind the name of a tag -/
  insert : Option String
  /-- keys of attributes to remove -/
  remove : List String
  /-- beginnings of keys of attributes to remove -/
  removePrefix : List String
  /-- new keys for attributes, which keep their values -/
  rename : Dict String
  /-- a word that has to be in the `class` attribute -/
  ensureClass : Option String
  deriving DecidableEq

namespace Rule

/-- whether there is anything that the rule could do -/
def hasAction (r : Rule) : Bool :=
  r.insert.isSome || !r.remove.isEmpty || !r.removePrefix.isEmpty || !r.rename.isEmpty ||
    r.ensureClass.isSome

/-- one word that can stand in a quoted value -/
def isClassName (s : String) : Bool := !s.isEmpty && s.toList.all fun c => !isBlank c && c != '"'

/-- why a rule is of no use -/
inductive Fault where
  | noAction
  | invalidClass (name : String)
  deriving DecidableEq, Repr

def check (r : Rule) : Except Fault Unit :=
  if !r.hasAction then .error .noAction
  else
    match r.ensureClass with
    | some c => if isClassName c then .ok () else .error (.invalidClass c)
    | none => .ok ()

def appliesTo (r : Rule) (tag : String) : Bool := r.tags.isEmpty || r.tags.contains tag

/-! ## answers -/

def classText (value : String) : String := String.join [" class=\"", value, "\""]

/-- the text to insert into a tag, if it is not empty -/
def onTag (r : Rule) (attributes : Attributes) : Option String :=
  let added := match r.ensureClass with
    | some c => if attributes.contains "class" then "" else classText c
    | none => ""
  let text := r.insert.getD "" ++ added
  if text.isEmpty then none else some text

def removes (r : Rule) (key : String) : Bool :=
  r.remove.contains key || r.removePrefix.any fun p => p.toList.isPrefixOf key.toList

/-- an attribute under another key -/
def renamed (key : String) (value : Option String) : String :=
  match value with
  | some v => String.join [" ", key, "=", v]
  | none => " " ++ key

/-- a class attribute with the word `c` in front of the words it has, unless it is among them -/
def withClass (c : String) (a : Attribute) : Option String :=
  let current := a.unquoted.getD ""
  if (words current.toList).contains c.toList then none
  else if isAllBlank current.toList then some (classText c)
  else some (classText (String.join [c, " ", current]))

/-- the text in place of an attribute; removal comes first, then a new key, then the class -/
def onAttr (r : Rule) (a : Attribute) : Option String :=
  if r.removes a.key then some ""
  else
    match r.rename.get? a.key with
    | some key => some (renamed key a.value)
    | none =>
      match r.ensureClass with
      | some c => if a.key = "class" then withClass c a else none
      | none => none

/-- what a rule has to say about a part -/
def answer (r : Rule) (part : Part) : Option String :=
  if r.appliesTo part.tagName then
    match part with
    | .tag _ attributes => r.onTag attributes
    | .attr _ a _ => r.onAttr a
  else none

end Rule

end Stencil
