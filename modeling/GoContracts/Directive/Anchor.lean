import GoContracts.Directive.Parser
import GoContracts.Syntax.SourceFile

/-!
# Anchors

An anchor is a directive at its place in a file.
-/

namespace GoContracts

/-- A directive and the comment that holds it. -/
structure Anchor where
  directive : Directive
  /-- The path of the file. -/
  path : String
  /-- Number of the line on which the comment begins, counted from one. -/
  line : Nat
  /-- Number of the byte on that line at which the comment begins, counted from one. -/
  column : Nat
  /-- Position of the first byte of the comment. -/
  start : Nat
  /-- Position after the last byte of the comment. -/
  stop : Nat
  /-- Whether something other than blanks stands before the comment on its line. -/
  inline : Bool
  deriving DecidableEq, Repr

namespace Anchor

/-- The place of a directive, as it appears in messages. -/
def location (a : Anchor) : String := a.path ++ ":" ++ toString a.line

/-- The directive of a comment, if it holds one. -/
def ofComment? (file : SourceFile) (comment : Syntax.Tree) : Option Anchor :=
  (Directive.parse? (file.textOf comment)).map fun directive =>
    { directive
      path := file.path
      line := Text.rowAt file.text comment.start + 1
      column := Text.columnAt file.text comment.start + 1
      start := comment.start
      stop := comment.stop
      inline := !Text.startsLine file.text comment.start }

end Anchor

/-- The directives of a file in order. -/
def SourceFile.anchors (file : SourceFile) : List Anchor :=
  file.comments.filterMap (Anchor.ofComment? file)

end GoContracts
