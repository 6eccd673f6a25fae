import Codemod.Sorting
import Codemod.Span
import Codemod.Text.Bytes

/-!
# Text edits

An edit replaces a range of the source by new text.  Edits are ordered by
where they start and then by where they end, and the ones that overlap an
earlier kept edit, run backwards, leave the text or cut a character in two are
dropped.  The kept edits are carried out in one forward pass by `splice`.
-/

namespace Codemod

/-- The replacement of a range of a source text. -/
structure Edit where
  start : Nat
  stop : Nat
  text : List Char
  deriving DecidableEq, Repr

namespace Edit

def insert (offset : Nat) (text : List Char) : Edit :=
  ⟨offset, offset, text⟩

def delete (span : Span) : Edit :=
  ⟨span.start, span.stop, []⟩

def replace (span : Span) (text : List Char) : Edit :=
  ⟨span.start, span.stop, text⟩

def span (edit : Edit) : Span :=
  ⟨edit.start, edit.stop⟩

def precedes (first second : Edit) : Bool :=
  first.start < second.start ||
    (first.start == second.start && first.stop ≤ second.stop)

/-- Whether an edit can follow kept edits that reach up to `reached`. -/
def fits (source : List Char) (reached : Nat) (edit : Edit) : Bool :=
  reached ≤ edit.start && edit.start ≤ edit.stop &&
    Text.isBoundary source edit.start && Text.isBoundary source edit.stop

/-- Divide edits, in order, into the kept and the dropped ones. -/
def select (source : List Char) (reached : Nat) :
    List Edit → List Edit × List Edit
  | [] => ([], [])
  | edit :: rest =>
    if edit.fits source reached then
      let (kept, dropped) := select source edit.stop rest
      (edit :: kept, dropped)
    else
      let (kept, dropped) := select source reached rest
      (kept, edit :: dropped)

/-- Carry out kept edits on the text that starts at offset `reached`. -/
def splice (reached : Nat) (text : List Char) : List Edit → List Char
  | [] => text
  | edit :: rest =>
    Text.takeBytes (edit.start - reached) text ++ edit.text ++
      splice edit.stop (Text.dropBytes (edit.stop - reached) text) rest

end Edit

/-- A text after edits, with the edits that could not be carried out. -/
structure Edited where
  text : List Char
  dropped : List Edit
  deriving DecidableEq, Repr

def applyEdits (source : List Char) (edits : List Edit) : Edited :=
  let (kept, dropped) :=
    Edit.select source 0 (sortBy Edit.precedes edits)
  ⟨Edit.splice 0 source kept, dropped⟩

end Codemod
