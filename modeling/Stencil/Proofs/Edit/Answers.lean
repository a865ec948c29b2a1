import Stencil.Markup.Edit
import Stencil.Proofs.Markup.Split

/-!
# The answers of an edit

An edit asks about all parts of a template in order, and puts the answers in afterwards.

* `OpeningTag.parts`, `askAll`   the parts of a tag, and the answers for all of them, tag by tag;
* `OpeningTag.put`, `putAll`     the text with given answers;
* `putAll_declined`              without answers the text stays as it is;
* `edit_eq_map`                  an edit is the one after the other.
-/

namespace Stencil.Markup

open Stencil.Text

/-! ## parts -/

/-- what is asked about a tag, in order: the tag itself and its attributes -/
def OpeningTag.parts (t : OpeningTag) : List Part :=
  .tag t.tagName t.attributeMap ::
    t.attributes.map fun a => .attr t.tagName a.attr t.attributeMap

/-- the attributes that stand in the place of each part -/
def OpeningTag.owned (t : OpeningTag) : List (List AttributeText) :=
  [] :: t.attributes.map fun a => [a]

/-- the text in the place of a part that owns the attributes `own` -/
def answered (own : List AttributeText) (answer : Option String) : List Char :=
  answer.elim (renderAll own) String.toList

/-- a tag with its answers put in -/
def OpeningTag.put (t : OpeningTag) (answers : List (Option String)) : List Char :=
  '<' :: (t.name ++ ((List.zipWith answered t.owned answers).flatten ++ t.closing))

/-- pieces with the answers for their opening tags put in, tag by tag -/
def putAll : List Piece → List (List (Option String)) → List Char
  | .tag t :: ps, answers :: rest => t.put answers ++ putAll ps rest
  | p :: ps, rest => p.render ++ putAll ps rest
  | [], _ => []

theorem putAll_cons_other {p : Piece} (h : p.tag? = none) (ps : List Piece)
    (answers : List (List (Option String))) :
    putAll (p :: ps) answers = p.render ++ putAll ps answers := by
  cases p with
  | tag t => cases h
  | text run => rfl
  | lone => rfl
  | broken name => rfl

theorem OpeningTag.put_cons (t : OpeningTag) (inserted : Option String)
    (answers : List (Option String)) :
    t.put (inserted :: answers) = '<' :: (t.name ++ (inserted.elim [] String.toList ++
      ((List.zipWith (fun a => answered [a]) t.attributes answers).flatten ++ t.closing))) := by
  rw [put, owned, List.zipWith_cons_cons, List.flatten_cons, List.zipWith_map_left,
    List.append_assoc]
  rfl

/-- without any answer a tag stays as it is -/
theorem OpeningTag.put_declined (t : OpeningTag) :
    t.put (t.parts.map fun _ => none) = t.render := by
  have hattributes : ∀ l : List AttributeText,
      (List.zipWith (fun a => answered [a]) l (l.map fun _ => none)).flatten = renderAll l := by
    intro l
    induction l with
    | nil => rfl
    | cons a l ih =>
      have hkept : answered [a] none = a.render := List.append_nil _
      rw [List.map_cons, List.zipWith_cons_cons, List.flatten_cons, ih, hkept, renderAll_cons]
  rw [parts, List.map_cons, List.map_map, put_cons, render_eq]
  exact congrArg (fun text => '<' :: (t.name ++ (text ++ t.closing))) (hattributes t.attributes)

theorem putAll_declined (ps : List Piece) :
    putAll ps ((openingTags ps).map fun t => t.parts.map fun _ => none) = render ps := by
  induction ps with
  | nil => rfl
  | cons p ps ih =>
    rw [render_cons]
    rcases p.tag_or_other with ⟨t, rfl⟩ | hp
    · show t.put _ ++ putAll ps ((openingTags ps).map _) = t.render ++ render ps
      rw [t.put_declined, ih]
    · rw [openingTags_cons_other hp, putAll_cons_other hp, ih]

/-! ## asking -/

section
variable {m : Type → Type} [Monad m] (ask : Part → m (Option String))

/-- the answers for the opening tags of pieces, tag by tag -/
def askAll (ps : List Piece) : m (List (List (Option String))) :=
  (openingTags ps).mapM fun t => t.parts.mapM ask

theorem Piece.edit_of_other {p : Piece} (h : p.tag? = none) : p.edit ask = pure p.render := by
  cases p with
  | tag t => cases h
  | text run => rfl
  | lone => rfl
  | broken name => rfl

variable [LawfulMonad m]

theorem mapM_map_eq {α γ δ : Type} (g : α → γ → δ) (f : α → m γ) (l : List α) :
    (l.mapM fun a => g a <$> f a) = List.zipWith g l <$> l.mapM f := by
  induction l with
  | nil => simp
  | cons a l ih => simp [List.mapM_cons, ih]

theorem AttributeText.edit_eq_map (t : OpeningTag) (a : AttributeText) :
    a.edit ask t = answered [a] <$> ask (.attr t.tagName a.attr t.attributeMap) := by
  have hrender : renderAll [a] = a.render := List.append_nil _
  rw [AttributeText.edit, map_eq_pure_bind]
  simp only [answered, hrender]

theorem OpeningTag.edit_eq_map (t : OpeningTag) :
    t.edit ask = t.put <$> t.parts.mapM ask := by
  have hattributes : t.attributes.mapM (AttributeText.edit ask t) =
      List.zipWith (fun a => answered [a]) t.attributes <$>
        t.attributes.mapM fun a => ask (.attr t.tagName a.attr t.attributeMap) := by
    rw [← mapM_map_eq]
    exact congrArg (List.mapM · t.attributes) (funext (AttributeText.edit_eq_map ask t))
  rw [OpeningTag.edit, OpeningTag.parts, List.mapM_cons, List.mapM_map, hattributes]
  simp [OpeningTag.put_cons, OpeningTag.closing, Function.comp_def]

/-- an edit first asks about everything, and then puts the answers in -/
theorem edit_eq_map (ps : List Piece) :
    edit ask ps = (fun answers => String.ofList (putAll ps answers)) <$> askAll ask ps := by
  have hput : List.flatten <$> ps.mapM (Piece.edit ask) = putAll ps <$> askAll ask ps := by
    induction ps with
    | nil => simp [askAll, openingTags, putAll]
    | cons p ps ih =>
      have hcons : ∀ text, List.flatten <$> (text :: ·) <$> ps.mapM (Piece.edit ask) =
          (text ++ ·) <$> putAll ps <$> askAll ask ps := by
        intro text
        rw [← ih]
        simp
      rcases p.tag_or_other with ⟨t, rfl⟩ | hp
      · show _ = putAll (.tag t :: ps) <$> List.mapM _ (t :: openingTags ps)
        rw [List.mapM_cons, List.mapM_cons, Piece.edit, OpeningTag.edit_eq_map]
        simp only [bind_map_left, map_bind, bind_pure_comp, hcons]
        simp [askAll, putAll]
      · rw [List.mapM_cons, Piece.edit_of_other ask hp, pure_bind, bind_pure_comp, hcons, askAll,
          askAll, openingTags_cons_other hp, Functor.map_map]
        exact congrArg (· <$> _) (funext fun answers => (putAll_cons_other hp ps answers).symm)
  rw [edit, bind_pure_comp]
  calc (fun texts => String.ofList texts.flatten) <$> ps.mapM (Piece.edit ask)
      = String.ofList <$> List.flatten <$> ps.mapM (Piece.edit ask) := by rw [Functor.map_map]
    _ = String.ofList <$> putAll ps <$> askAll ask ps := by rw [hput]
    _ = (fun answers => String.ofList (putAll ps answers)) <$> askAll ask ps := by
      rw [Functor.map_map]
end

end Stencil.Markup
