import Offside.Catalogue.Property

/-! Labels of properties: `id=default : Type Description.`, in segments that a list may style. -/
namespace Offside

open Text Character

inductive SegmentKind where
  | name
  | operator
  | value
  | punct
  | type
  | description
  deriving DecidableEq, Repr

structure Segment where
  kind : SegmentKind
  text : Text
  deriving DecidableEq, Repr

def Segment.plain (segments : List Segment) : Text := segments.flatMap Segment.text

mutual

/-- A default value as a label shows it; null and an empty list show nothing. The items of a list stand between
commas, and one that shows nothing leaves its place empty. -/
def Json.shown? : Json → Option Text
  | .null | .array [] => none
  | .string t => some t
  | .array (item :: items) => some ((item.shown?).getD [] ++ Json.shownAfter items)
  | value => some value.text

def Json.shownAfter : List Json → Text
  | [] => []
  | item :: items => ',' :: (item.shown?).getD [] ++ Json.shownAfter items

end

/-- The first sentence, without control characters. -/
def firstSentence (description : Text) : Text :=
  (description.takeWhile (· ≠ '.') ++ (description.dropWhile (· ≠ '.')).take 1).filter (!isControl ·)

namespace Property

def shownDefault? (p : Property) : Option Text := p.defaultValue.bind Json.shown?

def segments (p : Property) : List Segment :=
  let value := match p.shownDefault? with
    | some t => [⟨.operator, ['=']⟩, ⟨.value, t⟩]
    | none => []
  let type := match p.type with
    | some t => [⟨.punct, " : ".toList⟩, ⟨.type, TypeName.short t⟩]
    | none => []
  let sentence := trim ((p.description.map firstSentence).getD [])
  let description := if sentence.isEmpty then [] else [⟨.punct, [' ']⟩, ⟨.description, sentence⟩]
  ⟨.name, p.id⟩ :: value ++ type ++ description

end Property
end Offside
