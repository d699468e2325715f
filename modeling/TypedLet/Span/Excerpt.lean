import TypedLet.Span.Basic
import TypedLet.Text.Decimal
import TypedLet.Text.Lines

namespace TypedLet.Span

open Text

def numberWidth : Nat := 5

/-- A line of the text behind its number. -/
def numberedLine (src : List Char) (number : Nat) : String :=
  String.ofList
    ((decimal number).toList.leftpad numberWidth ' ' ++ [':', ' '] ++ lineText src number)

/-- The numbers of the line `last` and of the `before` lines above it, as far as there are any. -/
def shownLines (last : Nat) (before : Int) : List Nat :=
  let first := max 1 ((last : Int) - before)
  List.range' first.toNat ((last : Int) + 1 - first).toNat

/-- The stretch underlined on the line where it begins, at least one mark wide. A sign at the
end of the marks says that it runs on beyond that line. -/
def underline (a : Span) (marker : String) : String :=
  let src := a.src.toList
  let line := lineAt src a.start
  let column := a.start - lineStart src line
  let room := (lineText src line).length - column
  let width := a.stop - a.start
  let indent := String.ofList (List.replicate (numberWidth + 2 + column).toNat ' ')
  let marks := String.join (List.replicate (max 1 (min width room)).toNat marker)
  indent ++ marks ++ if width > room then "↵" else ""

/-- The line where a stretch begins and `before` lines above it, then the underline. -/
def excerptLines (a : Span) (marker : String) (before : Int) : List String :=
  let src := a.src.toList
  (shownLines (lineAt src a.start) before).map (numberedLine src) ++ [a.underline marker]

def excerptWith (a : Span) (marker : String) (before : Int) : String :=
  "\n".intercalate (a.excerptLines marker before)

def excerpt (a : Span) : String := a.excerptWith "^" 1

end TypedLet.Span
