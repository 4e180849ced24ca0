import Mathlib.Data.List.DropRight

/-!
# Words of a list

The words between the separators of a list, the list without the separators at its
ends, and the words put together again.
-/
namespace Words

variable {α : Type} {p : α → Bool}

/-- The list without the elements at its ends that satisfy `p`. -/
def trim (p : α → Bool) (l : List α) : List α := (l.dropWhile p).rdropWhile p

/-- The non-empty parts between the elements that satisfy `p`. -/
def words (p : α → Bool) (l : List α) : List (List α) := (l.splitOnP p).filter fun word => !word.isEmpty

/-- The words with one separator between them. -/
def join (sep : α) (words : List (List α)) : List α := [sep].intercalate words

end Words
