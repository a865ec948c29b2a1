/-!
# Sizes in bytes

`bytes s` is the number of bytes that `s` takes in UTF-8.  Offsets into a template count these.
-/

namespace Stencil.Text

def bytes : List Char → Nat
  | [] => 0
  | c :: r => c.utf8Size + bytes r

@[simp] theorem bytes_nil : bytes [] = 0 := rfl

@[simp] theorem bytes_cons (c : Char) (s : List Char) : bytes (c :: s) = c.utf8Size + bytes s := rfl

@[simp] theorem bytes_append (s t : List Char) : bytes (s ++ t) = bytes s + bytes t := by
  induction s with
  | nil => simp
  | cons c r ih => rw [List.cons_append, bytes_cons, bytes_cons, ih, Nat.add_assoc]

end Stencil.Text
