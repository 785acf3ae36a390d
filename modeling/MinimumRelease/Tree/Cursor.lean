import MinimumRelease.Tree.Basic

/-!
# Cursors

A cursor stands at a node of a tree and can move to the first child, to the next sibling and to the
parent. It keeps what stands around each ancestor, so every move costs the same, and the way up ends
at the root from which it started.
-/

namespace MinimumRelease

/-- A node of a tree with all that is around it. -/
structure Cursor where
  /-- The node with its earlier siblings and its ancestors. -/
  site : Site
  /-- Later children of the same parent, nearest first. -/
  behind : List Node
  /-- For each ancestor its earlier and its later siblings. -/
  around : List (List Node × List Node)
  around_length : around.length = site.above.length

namespace Cursor

/-- The cursor at the root of a tree. -/
def ofRoot (root : Node) : Cursor := ⟨.ofRoot root, [], [], rfl⟩

/-- Down to the first child. -/
def firstChild? (c : Cursor) : Option Cursor :=
  match c.site.node.children with
  | [] => none
  | n :: ns =>
    some ⟨⟨n, [], c.site.node :: c.site.above⟩, ns, (c.site.before, c.behind) :: c.around,
      congrArg (· + 1) c.around_length⟩

/-- On to the next child of the same parent. -/
def nextSibling? (c : Cursor) : Option Cursor :=
  match c.behind with
  | [] => none
  | n :: ns =>
    some ⟨⟨n, c.site.node :: c.site.before, c.site.above⟩, ns, c.around, c.around_length⟩

/-- Up to the parent. -/
def parent? : Cursor → Option Cursor
  | ⟨⟨_, _, p :: above⟩, _, (before, behind) :: around, h⟩ =>
    some ⟨⟨p, before, above⟩, behind, around, Nat.succ.inj h⟩
  | _ => none

/-- The most moves that it takes from here through all later nodes and back to the root. Each node
is entered and left once. -/
def movesLeft (c : Cursor) : Nat :=
  2 * Node.sizes c.behind + c.around.foldr (fun level n => 2 * Node.sizes level.2 + 1 + n) 0

theorem movesLeft_firstChild {c d : Cursor} (h : c.firstChild? = some d) :
    2 * d.site.node.size + d.movesLeft + 1 = 2 * c.site.node.size + c.movesLeft := by
  unfold firstChild? at h
  split at h
  · cases h
  · next n ns hchildren =>
    cases h
    rw [Node.size_eq c.site.node, hchildren, Node.sizes]
    simp only [movesLeft, List.foldr_cons]
    omega

theorem movesLeft_nextSibling {c d : Cursor} (h : c.nextSibling? = some d) :
    2 * d.site.node.size + d.movesLeft = c.movesLeft := by
  unfold nextSibling? at h
  split at h
  · cases h
  · next n ns hbehind =>
    cases h
    simp only [movesLeft, hbehind, Node.sizes]
    omega

theorem movesLeft_parent {c d : Cursor} (h : c.parent? = some d) :
    d.movesLeft < c.movesLeft := by
  unfold parent? at h
  split at h
  · cases h
    simp only [movesLeft, List.foldr_cons]
    omega
  · cases h

end Cursor

end MinimumRelease
