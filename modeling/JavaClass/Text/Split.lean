/-!
# Splitting text at a separator

Every separator ends one part and begins the next, so parts can be empty, there is always one part
more than there are separators, and a text without separators is its own only part.
-/

namespace JavaClass

def splitChars (separator : Char) (cs : List Char) : List (List Char) :=
  cs.foldr (fun c parts =>
    if c = separator then [] :: parts
    else match parts with
      | [] => [[c]]
      | part :: parts => (c :: part) :: parts) [[]]

def splitText (separator : Char) (s : String) : List String :=
  (splitChars separator s.toList).map String.ofList

theorem splitChars_ne_nil (separator : Char) (cs : List Char) :
    splitChars separator cs ≠ [] := by
  cases cs with
  | nil => simp [splitChars]
  | cons c cs =>
    simp only [splitChars, List.foldr_cons]
    split
    · simp
    · split <;> simp

end JavaClass
