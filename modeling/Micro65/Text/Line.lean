import Micro65.Text.Basic
/-!
# Lines of a source

A line ends at a line feed; a carriage return directly before the line feed belongs to the line
ending, any other carriage return to the line. What follows the last line feed is a line of its own
unless it is empty, so a final line feed opens no further line.
-/

namespace Micro65

namespace Text

/-- The line without a carriage return at its end. -/
def dropReturn (line : Text) : Text :=
  if line.getLast? = some '\r' then line.dropLast else line

/-- The lines of a source in order, without their line endings. -/
def lines (source : Text) : List Text :=
  let fields := source.splitOn '\n'
  fields.dropLast.map dropReturn ++ fields.getLast?.toList.filter (· ≠ [])

end Text

end Micro65
