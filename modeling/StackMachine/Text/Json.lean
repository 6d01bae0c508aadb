/-!
# Documents of names and values

A small part of JSON: objects, whole numbers and texts, written over several lines with two spaces
for each level. The texts are words, messages and numbers of the machine, which hold no quotes, no
backslashes and no control characters, so they stand between quotes as they are.
-/

namespace StackMachine.Text

/-- A value of a document. -/
inductive Json where
  | number (n : Int)
  | text (s : String)
  /-- Names and their values, in order. -/
  | object (fields : List (String × Json))

namespace Json

/-- A text between quotes. -/
def quoted (s : String) : String := "\"" ++ s ++ "\""

/-- The blanks in front of a line of some level. -/
def indentation (level : Nat) : String := String.ofList (List.replicate (2 * level) ' ')

mutual

/-- A value as text, on lines of which the first is already indented. -/
def pretty (level : Nat) : Json → String
  | .number n => toString n
  | .text s => quoted s
  | .object [] => "\x7b\x7d"
  | .object (field :: fields) =>
    "\x7b\n" ++ prettyField (level + 1) field ++ prettyFields (level + 1) fields ++ "\n" ++
      indentation level ++ "\x7d"

/-- A name and its value, on lines of their own. -/
def prettyField (level : Nat) : String × Json → String
  | (name, value) => indentation level ++ quoted name ++ ": " ++ pretty level value

/-- The fields that follow another one. -/
def prettyFields (level : Nat) : List (String × Json) → String
  | [] => ""
  | field :: fields => ",\n" ++ prettyField level field ++ prettyFields level fields

end

end Json

end StackMachine.Text
