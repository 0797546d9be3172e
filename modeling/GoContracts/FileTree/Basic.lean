/-!
# File trees

A file tree is a file, a symbolic link, or a directory of named trees. The entries of a directory
stand in ascending order of their names, each name once. A place in a tree is the list of names that
leads to it.
-/

namespace GoContracts

/-- What a file holds. -/
inductive Content where
  /-- A text, stored in UTF-8. -/
  | text (s : String)
  /-- Bytes that are no text. -/
  | binary (bytes : ByteArray)

instance : Inhabited Content := ⟨.text ""⟩

instance : DecidableEq Content
  | .text s, .text s' => decidable_of_iff (s = s') (by rw [Content.text.injEq])
  | .binary b, .binary b' =>
    decidable_of_iff (b.data = b'.data) (by rw [Content.binary.injEq, ByteArray.ext_iff])
  | .text _, .binary _ | .binary _, .text _ => .isFalse Content.noConfusion

namespace Content

/-- The content of the given bytes. -/
def ofBytes (bytes : ByteArray) : Content :=
  match String.fromUTF8? bytes with
  | some s => text s
  | none => binary bytes

/-- The bytes of the content. -/
def toBytes : Content → ByteArray
  | text s => s.toUTF8
  | binary bytes => bytes

/-- The first `n` bytes of the content. -/
def cut (n : Nat) (c : Content) : Content := ofBytes (c.toBytes.extract 0 n)

/-- The text, if the content is one. -/
def text? : Content → Option String
  | text s => some s
  | binary _ => none

end Content

/-- A tree of files. -/
inductive FileTree where
  | file (content : Content)
  | link (target : String)
  | directory (entries : List (String × FileTree))

namespace FileTree

instance : Inhabited FileTree := ⟨directory []⟩

/-- The directory without entries. -/
def empty : FileTree := directory []

/-- The entries of a directory. -/
def entries : FileTree → List (String × FileTree)
  | directory es => es
  | _ => []

/-- Whether the tree is a directory. -/
def isDirectory : FileTree → Bool
  | directory _ => true
  | _ => false

/-- Whether the tree is a file. -/
def isFile : FileTree → Bool
  | file _ => true
  | _ => false

/-- The entry of the given name. -/
def below? (t : FileTree) (name : String) : Option FileTree :=
  (t.entries.find? (·.1 = name)).map (·.2)

/-- The tree at a place. -/
def get? : FileTree → List String → Option FileTree
  | t, [] => some t
  | t, name :: names => (t.below? name).bind fun below => get? below names

/-- The entries with one of the given name in place of any other of that name. -/
def setEntry (name : String) (t : FileTree) : List (String × FileTree) → List (String × FileTree)
  | [] => [(name, t)]
  | e :: es =>
    if e.1 = name then (name, t) :: es
    else if name < e.1 then (name, t) :: e :: es
    else e :: setEntry name t es

/-- The entries without one of the given name. -/
def eraseEntry (name : String) (es : List (String × FileTree)) : List (String × FileTree) :=
  es.filter (·.1 ≠ name)

/-- The tree with the entries of the directory at a place changed. -/
def modifyAt (f : List (String × FileTree) → List (String × FileTree)) :
    List String → FileTree → FileTree
  | [], directory es => directory (f es)
  | name :: names, directory es =>
    directory (es.map fun e => if e.1 = name then (e.1, modifyAt f names e.2) else e)
  | _, t => t

/-- The tree with `t` as the entry `name` of the directory at a place. -/
def insertAt (place : List String) (name : String) (t : FileTree) (root : FileTree) : FileTree :=
  modifyAt (setEntry name t) place root

/-- The tree without the entry `name` of the directory at a place. -/
def eraseAt (place : List String) (name : String) (root : FileTree) : FileTree :=
  modifyAt (eraseEntry name) place root

mutual

/-- The paths of everything below the tree, each after the given beginning. Those of directories
end with a slash. -/
def listBelow (path : String) : FileTree → List String
  | directory es => listEntries path es
  | _ => []

/-- The paths of the entries and of everything below them. -/
def listEntries (path : String) : List (String × FileTree) → List String
  | [] => []
  | (name, t) :: es =>
    let own := path ++ name ++ (if t.isDirectory then "/" else "")
    own :: listBelow own t ++ listEntries path es

end

end FileTree

end GoContracts
