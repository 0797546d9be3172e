import GoContracts.Syntax.Kind

/-!
# Syntax trees

A tree covers the bytes from its start up to its stop, and its children lie in order inside it.
Blanks belong to no leaf. A comment is a child of the innermost node in which it stands neither
first nor last.
-/

namespace GoContracts.Syntax

/-- What a tree stands for. -/
inductive Label where
  /-- A named node. -/
  | node (kind : Kind)
  /-- A symbol or keyword. -/
  | token (text : String)
  /-- The newline that ends a statement. It extends its parent and is not kept as a child. -/
  | lineBreak
  deriving DecidableEq, Repr

/-- A syntax tree with byte positions. -/
inductive Tree where
  | mk (label : Label) (role? : Option Role) (start stop : Nat) (children : List Tree)
  deriving Repr

instance : Inhabited Tree := ⟨.mk .lineBreak none 0 0 []⟩

namespace Tree

/-- What the tree stands for. -/
def label : Tree → Label
  | mk l _ _ _ _ => l

/-- The role of the tree in its parent. -/
def role? : Tree → Option Role
  | mk _ r _ _ _ => r

/-- Position of the first byte. -/
def start : Tree → Nat
  | mk _ _ s _ _ => s

/-- Position after the last byte. -/
def stop : Tree → Nat
  | mk _ _ _ s _ => s

/-- The children in order. -/
def children : Tree → List Tree
  | mk _ _ _ _ cs => cs

/-- The same tree in the role `r`. -/
def asRole (r : Role) : Tree → Tree
  | mk l _ s e cs => mk l (some r) s e cs

/-- The same tree in no role. -/
def withoutRole : Tree → Tree
  | mk l _ s e cs => mk l none s e cs

/-- The same tree with another kind. -/
def asKind (k : Kind) : Tree → Tree
  | mk _ r s e cs => mk (.node k) r s e cs

/-- The kind of a named node. -/
def kind? (t : Tree) : Option Kind :=
  match t.label with
  | .node k => some k
  | _ => none

/-- Whether the tree is a named node of kind `k`. -/
def is (t : Tree) (k : Kind) : Bool := t.label = .node k

/-- Whether the tree is the token `text`. -/
def isToken (t : Tree) (text : String) : Bool := t.label = .token text

/-- Whether the tree is a named node. -/
def isNamed (t : Tree) : Bool := t.kind?.isSome

/-- Whether the tree is a comment. -/
def isComment (t : Tree) : Bool := t.is .comment

/-- The children that are named nodes, comments among them. -/
def namedChildren (t : Tree) : List Tree := t.children.filter (·.isNamed)

/-- The named children other than comments. -/
def items (t : Tree) : List Tree := t.namedChildren.filter (!·.isComment)

/-- The children in the role `r`. -/
def childrenIn (t : Tree) (r : Role) : List Tree := t.children.filter (·.role? = some r)

/-- The first child in the role `r`. -/
def child? (t : Tree) (r : Role) : Option Tree := t.children.find? (·.role? = some r)

/-- A leaf. -/
def leaf (label : Label) (start stop : Nat) : Tree := mk label none start stop []

/-- A node of kind `k` over its parts. It reaches from the first part to the last; line breaks
count for its extent only. -/
def node (k : Kind) (parts : List Tree) : Tree :=
  mk (.node k) none ((parts.head?.map start).getD 0) ((parts.getLast?.map stop).getD 0)
    (parts.filter (·.label ≠ .lineBreak))

/-! ## Traversals -/

mutual

/-- All nodes of the tree, each before its children. -/
def preorder : Tree → List Tree
  | mk l r s e cs => mk l r s e cs :: preorderAll cs

/-- All nodes of the trees, each before its children. -/
def preorderAll : List Tree → List Tree
  | [] => []
  | t :: ts => preorder t ++ preorderAll ts

end

mutual

/-- The nodes from the tree down to the smallest one that covers the bytes from `a` to `b`. A node
covers a position when it begins at or before it and ends after it. -/
def pathTo (a b : Nat) : Tree → List Tree
  | mk l r s e cs => mk l r s e cs :: pathIn a b cs

/-- The nodes from the first of the trees that covers the bytes from `a` to `b` down to the
smallest one. -/
def pathIn (a b : Nat) : List Tree → List Tree
  | [] => []
  | t :: ts =>
    if t.stop < b || (if t.start = t.stop then t.stop < a else t.stop ≤ a) then pathIn a b ts
    else if a < t.start then []
    else pathTo a b t

end

/-- The smallest named node that covers the bytes from `a` to `b`. -/
def smallestAt (t : Tree) (a b : Nat) : Tree :=
  (((t.pathTo a b).filter (·.isNamed)).getLast?).getD t

mutual

/-- The tree with each comment as a child of the innermost node that contains it. -/
def attach : Tree → List Tree → Tree
  | mk l r s e cs, comments => mk l r s e (attachAll cs comments)

/-- The trees with each comment placed inside the one that contains it, or between them. -/
def attachAll : List Tree → List Tree → List Tree
  | [], comments => comments
  | t :: ts, comments =>
    let before := comments.filter fun c => c.start < t.start
    let inside := comments.filter fun c => t.start ≤ c.start && c.start < t.stop
    let after := comments.filter fun c => t.stop ≤ c.start
    before ++ (if inside.isEmpty then t else attach t inside) :: attachAll ts after

end

end Tree

/-! ## Specifications of a declaration -/

/-- Whether the tree declares variables or constants. -/
def isValueSpec (t : Tree) : Bool := t.is .varSpec || t.is .constSpec

/-- The specifications of a declaration of variables or constants, grouped or not. -/
def valueSpecs (declaration : Tree) : List Tree :=
  declaration.namedChildren.flatMap fun child =>
    if isValueSpec child then [child]
    else if child.is .varSpecList then child.namedChildren.filter isValueSpec
    else []

end GoContracts.Syntax
