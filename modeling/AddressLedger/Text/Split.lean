/-!
# Pieces between separators
-/
namespace AddressLedger.Text

/-- The pieces of a text between the occurrences of a character; at least one. -/
def splitAt (sep : Char) : List Char → List (List Char)
  | [] => [[]]
  | c :: cs =>
    if c = sep then [] :: splitAt sep cs
    else match splitAt sep cs with
      | piece :: pieces => (c :: piece) :: pieces
      | [] => [[c]]

/-- The text before the first occurrence of a character, and the text after it if there is one. -/
def cutAt (sep : Char) (cs : List Char) : List Char × Option (List Char) :=
  match cs.dropWhile (· != sep) with
  | _ :: rest => (cs.takeWhile (· != sep), some rest)
  | [] => (cs, none)

end AddressLedger.Text
