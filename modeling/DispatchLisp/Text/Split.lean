/-!
# Text.Split — the pieces of a text between separators
-/

namespace DispatchLisp

/-- The pieces of a text between the occurrences of a separator; there is always at least one. -/
def splitOnChar (separator : Char) : List Char → List (List Char)
  | [] => [[]]
  | c :: rest =>
    if c = separator then [] :: splitOnChar separator rest
    else
      match splitOnChar separator rest with
      | piece :: pieces => (c :: piece) :: pieces
      | [] => [[c]]

end DispatchLisp
