import TypedForest.Forest.Traversal

/-!
# Containment

Nodes are meant to form trees: below a node, no node is met twice, and each has
the node that contains it as its parent.  Edits see to that, and what is built
on trees can check it.

## Main Definitions

* `Forest.meetChildren`, `Forest.meetBelow`: collect the nodes of a tree.
* `Forest.checkTree`: whether the nodes below a node form a tree, and how many
  there are.

## Design Notes

The check remembers the nodes it has met and refuses to meet one twice.  This
bounds it by the size of the forest, whatever parents and slots say.
-/

namespace TypedForest.Forest

/-- Meet the children of a node: each must be new, must exist, and must have the
node as its parent. -/
def meetChildren (f : Forest) (owner : NodeId) (met : List NodeId) :
    List NodeId → Except Error (List NodeId)
  | [] => .ok met
  | c :: cs =>
      if c ∈ met then .error (.cyclic (f.label c))
      else
        match f.get? c with
        | none => .error (.unknownNode c)
        | some n =>
            if n.parent = some owner then meetChildren f owner (c :: met) cs
            else
              .error (.misplaced (.astray (f.label c) (f.label owner) n.parent))

/-- Meet everything below the nodes on a stack, latest first. -/
def meetBelow (f : Forest) : Nat → List NodeId → List NodeId → Except Error (List NodeId)
  | 0, met, _ => .ok met
  | _ + 1, met, [] => .ok met
  | budget + 1, met, owner :: stack =>
      match f.meetChildren owner met (f.children owner) with
      | .error e => .error e
      | .ok met => meetBelow f budget met ((f.children owner).reverse ++ stack)

/-- Check that the nodes below `root` form a tree with agreeing parents, and
count them. -/
def checkTree (f : Forest) (root : NodeId) : Except Error Nat :=
  match f.node root with
  | .error e => .error e
  | .ok _ => (f.meetBelow f.size [root] [root]).map List.length

end TypedForest.Forest
