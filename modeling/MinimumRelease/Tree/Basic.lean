import MinimumRelease.Text.Bytes

/-!
# Syntax trees

The tree that a Java parser makes of a text. A node knows its kind, its byte range and the field
names under which its parent holds it. Much of what a node means depends on what stands around it,
so the tree is looked at through sites: a node together with its earlier siblings and its
ancestors. The sites of a tree come in document order, every parent before its children.
-/

namespace MinimumRelease

/-- A node of a syntax tree. Punctuation and keywords are nodes too; their kind is the token
itself and they are not `named`. -/
structure Node where
  kind : String
  named : Bool
  /-- The parser put the node in where the text lacks it. -/
  missing : Bool
  /-- Byte offset of the first character. -/
  start : Nat
  /-- Byte offset behind the last character. -/
  stop : Nat
  /-- Field names under which the parent holds the node. -/
  fields : List String
  children : List Node

namespace Node

mutual

/-- Number of nodes in the tree below and including `n`. -/
def size : Node → Nat
  | ⟨_, _, _, _, _, _, children⟩ => sizes children + 1

/-- Number of nodes in several trees. -/
def sizes : List Node → Nat
  | [] => 0
  | n :: ns => n.size + sizes ns

end

/-- The part of the source that the node covers. -/
def text (source : String) (n : Node) : String :=
  String.ofList (Text.slice source.toList n.start n.stop)

/-- Comments may stand anywhere in a tree. -/
def isComment (n : Node) : Bool := n.kind = "line_comment" || n.kind = "block_comment"

/-- The named children that are not comments. -/
def significant (n : Node) : List Node := n.children.filter fun c => c.named && !c.isComment

/-- The child that the node holds under a field name. -/
def child? (n : Node) (field : String) : Option Node :=
  n.children.find? fun c => c.fields.contains field

/-- The position of the child that the node holds under a field name. -/
def fieldIndex? (n : Node) (field : String) : Option Nat :=
  n.children.findIdx? fun c => c.fields.contains field

/-- Whether the node has a child of the given kind. -/
def hasChild (n : Node) (kind : String) : Bool := n.children.any (·.kind = kind)

/-- The parser could not read the text here, or put a node in. -/
def isFault (n : Node) : Bool := n.kind = "ERROR" || n.missing

theorem size_eq (n : Node) : n.size = sizes n.children + 1 := by
  cases n; rw [size]

theorem size_le_sizes {c : Node} {ns : List Node} (h : c ∈ ns) : c.size ≤ sizes ns := by
  induction ns with
  | nil => simp at h
  | cons n ns ih =>
    rw [sizes]
    rcases List.mem_cons.1 h with rfl | h
    · omega
    · have := ih h; omega

/-- A child is smaller than its parent. -/
theorem size_lt_of_mem {c n : Node} (h : c ∈ n.children) : c.size < n.size := by
  have := size_le_sizes h
  rw [size_eq n]; omega

theorem mem_of_child? {n c : Node} {field : String} (h : n.child? field = some c) :
    c ∈ n.children :=
  List.mem_of_find?_eq_some h

theorem mem_of_mem_significant {n c : Node} (h : c ∈ n.significant) : c ∈ n.children :=
  (List.mem_filter.1 h).1

end Node

/-- A node where it stands in its tree. -/
structure Site where
  node : Node
  /-- Earlier children of the same parent, nearest first. -/
  before : List Node
  /-- Ancestors, nearest first. -/
  above : List Node

namespace Site

/-- The root of a tree has nothing around it. -/
def ofRoot (root : Node) : Site := ⟨root, [], []⟩

/-- Kind of the node. -/
def kind (s : Site) : String := s.node.kind

/-- The node that holds this one as a child. -/
def parent? (s : Site) : Option Node := s.above.head?

/-- Kind of the parent. -/
def parentKind? (s : Site) : Option String := s.parent?.map (·.kind)

/-- Whether the parent has the given kind. -/
def isUnder (s : Site) (kind : String) : Bool := s.parentKind? = some kind

/-- Whether this is the child that the parent holds under a field name. -/
def isHeldAs (s : Site) (field : String) : Bool :=
  s.parent?.bind (·.fieldIndex? field) = some s.before.length

/-- The sites of consecutive children, given the ancestors and the earlier children. -/
def place (above before : List Node) : List Node → List Site
  | [] => []
  | c :: cs => ⟨c, before, above⟩ :: place above (c :: before) cs

/-- The sites of the node's children. -/
def children (s : Site) : List Site := place (s.node :: s.above) [] s.node.children

end Site

namespace Node

mutual

/-- The node and everything below it, in document order. -/
def sitesFrom (above before : List Node) : Node → List Site
  | ⟨kind, named, missing, start, stop, fields, children⟩ =>
    let n : Node := ⟨kind, named, missing, start, stop, fields, children⟩
    ⟨n, before, above⟩ :: sitesOfChildren (n :: above) [] children

/-- Consecutive children and everything below them, in document order. -/
def sitesOfChildren (above before : List Node) : List Node → List Site
  | [] => []
  | c :: cs => c.sitesFrom above before ++ sitesOfChildren above (c :: before) cs

end

/-- All sites of the tree with root `n`, in document order. -/
def sites (n : Node) : List Site := n.sitesFrom [] []

end Node

/-- A source text and the tree that the parser made of it. -/
structure SyntaxTree where
  source : String
  root : Node

namespace SyntaxTree

/-- All sites of the tree, in document order. -/
def sites (t : SyntaxTree) : List Site := t.root.sites

/-- Number of nodes. -/
def nodeCount (t : SyntaxTree) : Nat := t.root.size

/-- Line of a node's first character, counted from one. -/
def lineOf (t : SyntaxTree) (n : Node) : Nat :=
  Text.lineFeedsBefore n.start t.source.toList + 1

/-- One-line description of the tree for diagnostics. -/
def summary (t : SyntaxTree) : String :=
  "SyntaxTree \x7b root: \"" ++ t.root.kind ++ "\", bytes: " ++
    Nat.repr (Text.byteLength t.source.toList) ++ " \x7d"

end SyntaxTree

end MinimumRelease
