import Codemod.Text.Bytes

/-!
# Lines and indentation

Layout questions about a source text, asked by byte offset.  A line starts
after a line feed, its indentation is its leading spaces and tabs, and a blank
line is one whose bytes are all ASCII white space.
-/

namespace Codemod.Text

/-- Spaces and tabs indent a line. -/
def isIndent (char : Char) : Bool :=
  char == ' ' || char == '\t'

/-- ASCII white space: space, tab, line feed, form feed and carriage return. -/
def isAsciiBlank (char : Char) : Bool :=
  char == ' ' || char == '\t' || char == '\n' || char == '\x0c' || char == '\r'

/-- The part of the line around `offset` that stands before it. -/
def lineHead (text : List Char) (offset : Nat) : List Char :=
  ((takeBytes offset text).reverse.takeWhile (· != '\n')).reverse

/-- The offset at which the line around `offset` starts. -/
def lineStart (text : List Char) (offset : Nat) : Nat :=
  byteLength (takeBytes offset text) - byteLength (lineHead text offset)

/-- The leading spaces and tabs of the line around `offset`. -/
def lineIndent (text : List Char) (offset : Nat) : List Char :=
  (dropBytes (lineStart text offset) text).takeWhile isIndent

/-- Whether only spaces and tabs stand before `offset` on its line. -/
def startsLine (text : List Char) (offset : Nat) : Bool :=
  (lineHead text offset).all isIndent

def isMultiline (text : List Char) (start stop : Nat) : Bool :=
  (slice text start stop).contains '\n'

/-- Whether a text has something other than white space on its first line. -/
def hasInk (text : List Char) : Bool :=
  (text.takeWhile (· != '\n')).any fun char => !isAsciiBlank char

/-- Offsets of the lines with ink that start in a text standing at `offset`. -/
def inkedLines (offset : Nat) : List Char → List Nat
  | [] => []
  | char :: rest =>
    let next := offset + char.utf8Size
    if char == '\n' && hasInk rest then next :: inkedLines next rest
    else inkedLines next rest

/--
The starts of the lines that begin strictly inside a range and hold something
other than white space before the range or the line ends.
-/
def lineStartsWithin (text : List Char) (start stop : Nat) : List Nat :=
  inkedLines start (slice text start stop)

/-- What a nested indentation adds to the one around it, if anything. -/
def indentStep : (outer inner : List Char) → Option (List Char)
  | [], [] => none
  | [], inner => some inner
  | _ :: _, [] => none
  | first :: outer, other :: inner =>
    if first = other then indentStep outer inner else none

end Codemod.Text
