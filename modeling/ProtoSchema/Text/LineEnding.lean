/-! # Line endings

A line may end in a line feed, a carriage return, or the two together. Readers of files see a
line feed for each of them.
-/

namespace ProtoSchema.Text

/-- The text with a line feed in place of every line ending. -/
def foldLineEndings : List Char → List Char
  | [] => []
  | '\r' :: '\n' :: cs => '\n' :: foldLineEndings cs
  | '\r' :: cs => '\n' :: foldLineEndings cs
  | c :: cs => c :: foldLineEndings cs

end ProtoSchema.Text
