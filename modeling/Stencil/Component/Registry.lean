import Stencil.Dict

/-!
# Global components

A registry lists the components that every template may use, under their tags and in the order in
which they were registered.  A tag can be registered once.
-/

namespace Stencil

abbrev Registry := Dict Nat

namespace Registry

inductive Error where
  | duplicate (tag : String)
  deriving DecidableEq, Repr

def Error.message : Error → String
  | .duplicate tag => s!"duplicate global component: {tag}"

def register (r : Registry) (tag : String) (id : Nat) : Except Error Registry :=
  match r.insertNew? tag id with
  | some r' => .ok r'
  | none => .error (.duplicate tag)

def registerAll (r : Registry) (l : List (String × Nat)) : Except Error Registry :=
  l.foldlM (fun r e => Registry.register r e.1 e.2) r

end Registry

end Stencil
