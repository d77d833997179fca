/-!
# Blanks and lines

White space as Unicode has it, the removal of blanks at the ends of a text, and the lines of a
text. All is defined on lists of characters; the functions on strings only wrap them.
-/

namespace Restack.Text

/-- The code points with Unicode's property `White_Space`, as inclusive ranges. -/
def blankRanges : List (Nat × Nat) :=
  [(0x09, 0x0D), (0x20, 0x20), (0x85, 0x85), (0xA0, 0xA0), (0x1680, 0x1680), (0x2000, 0x200A),
   (0x2028, 0x2029), (0x202F, 0x202F), (0x205F, 0x205F), (0x3000, 0x3000)]

def isBlank (c : Char) : Bool :=
  blankRanges.any fun r => decide (r.1 ≤ c.toNat) && decide (c.toNat ≤ r.2)

namespace Chars

def trimStart (s : List Char) : List Char := s.dropWhile isBlank

def trimEnd (s : List Char) : List Char := (s.reverse.dropWhile isBlank).reverse

def trim (s : List Char) : List Char := trimEnd (trimStart s)

def dropReturn (line : List Char) : List Char :=
  if line.getLast? = some '\r' then line.dropLast else line

/-- The lines behind the pieces between line feeds: only the last piece was not ended by a line
feed, so it keeps a carriage return and is no line when it is empty. -/
def linesOfPieces : List (List Char) → List (List Char)
  | [] => []
  | [last] => if last.isEmpty then [] else [last]
  | piece :: rest => dropReturn piece :: linesOfPieces rest

def lines (s : List Char) : List (List Char) := linesOfPieces (s.splitOn '\n')

end Chars

def trim (s : String) : String := String.ofList (Chars.trim s.toList)

def lines (s : String) : List String := (Chars.lines s.toList).map String.ofList

@[simp] theorem toList_trim (s : String) : (trim s).toList = Chars.trim s.toList := by
  simp [trim]

end Restack.Text
