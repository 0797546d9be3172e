import GoContracts.Overlay.Digest
import GoContracts.Path

/-!
# Manifests

A manifest maps the paths of files to the paths of their shadows, in ascending order. It is written
in the form that the build tool reads. A shadow is named after its file and its content, so that it
never changes under its name.
-/

namespace GoContracts.Shadow

/-- Number of digits of the digest that a name holds. -/
def digestLength : Nat := 12

/-- The name of the shadow of a file with the given content. -/
def name (path content : String) : String :=
  Path.fileStem path ++ "_" ++ String.ofList ((Digest.ofText content).toList.take digestLength) ++
    ".go"

end GoContracts.Shadow

namespace GoContracts.Text.Json

/-- How one character stands in a string of JSON. -/
def encodeChar (c : Char) : List Char :=
  match c with
  | '"' => ['\\', '"']
  | '\\' => ['\\', '\\']
  | '\n' => ['\\', 'n']
  | '\r' => ['\\', 'r']
  | '\t' => ['\\', 't']
  | '\x08' => ['\\', 'b']
  | '\x0c' => ['\\', 'f']
  | c =>
    if c.toNat < 0x20 then
      ['\\', 'u', '0', '0', Nat.digitChar (c.toNat / 16), Nat.digitChar (c.toNat % 16)]
    else [c]

/-- The text as a string of JSON. -/
def quote (s : String) : String := String.ofList ('"' :: s.toList.flatMap encodeChar ++ ['"'])

end GoContracts.Text.Json

namespace GoContracts

/-- The shadow of each file. -/
structure Manifest where
  /-- Paths of files and of their shadows, in ascending order of the first. -/
  entries : List (String × String) := []
  deriving DecidableEq, Repr

namespace Manifest

/-- The entries with one more, in place of any other of the same file. -/
def insertEntry (file shadow : String) : List (String × String) → List (String × String)
  | [] => [(file, shadow)]
  | e :: es =>
    if e.1 = file then (file, shadow) :: es
    else if file < e.1 then (file, shadow) :: e :: es
    else e :: insertEntry file shadow es

/-- Map a file to its shadow. -/
def record (m : Manifest) (file shadow : String) : Manifest :=
  { entries := insertEntry file shadow m.entries }

/-- Number of files that are mapped. -/
def size (m : Manifest) : Nat := m.entries.length

/-- Whether no file is mapped. -/
def isEmpty (m : Manifest) : Bool := m.entries.isEmpty

/-- The shadow of a file. -/
def shadow? (m : Manifest) (file : String) : Option String :=
  (m.entries.find? (·.1 = file)).map (·.2)

/-- One entry on a line of its own, without what ends the line. -/
def entryLine (e : String × String) : String :=
  "    " ++ Text.Json.quote e.1 ++ ": " ++ Text.Json.quote e.2

/-- The entries as an object. -/
def renderEntries (entries : List (String × String)) : String :=
  if entries.isEmpty then "\x7b\x7d"
  else "\x7b\n" ++ ",\n".intercalate (entries.map entryLine) ++ "\n  \x7d"

/-- The text of a manifest. -/
def render (m : Manifest) : String :=
  "\x7b\n  \"Replace\": " ++ renderEntries m.entries ++ "\n\x7d"

/-- The name of the file that holds the manifest. -/
def fileName : String := "overlay.json"

end Manifest

end GoContracts
