import PathQuery.Filter.Span

/-!
# Filter/Caret — a message with the offending place underlined

Below the message stands the line of the source in which the span starts, and below that a caret
under the first character of the span, drawn out with tildes over its length.
-/

namespace PathQuery.Filter

/-- A character repeated. -/
def repeated (n : Nat) (c : Char) : String := String.ofList (List.replicate n c)

/-- How many marks underline a span of `length` bytes that starts in a column of a line of `size`
bytes: no more than the line has left, but at least one. -/
def markCount (length size column : Nat) : Nat := max 1 (min length (size - (column - 1)))

/-- The message, the column, and the underlined line if the span starts in one. -/
def underline (source : List Char) (span : Span) (message : String) : String :=
  let (line, column) := Text.lineAndColumn source span.start
  let head := s!"error: {message}\n  --> column {column}\n"
  match (Text.lines source)[line - 1]? with
  | none => head
  | some text =>
    let marks := markCount span.length (Text.byteSize text) column
    head ++ "   |\n   | " ++ String.ofList text ++ "\n   | " ++ repeated (column - 1) ' ' ++ "^" ++
      repeated (marks - 1) '~' ++ "\n"

end PathQuery.Filter
