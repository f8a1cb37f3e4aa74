import Clausal.Tree.Basic

/-! # Unfoldings

The unfolding of an element is the ordered tree of what lies below it, with ids, kinds and origins. Everything
that walks a tree walks an unfolding, by recursion on its structure. -/

namespace Clausal

/-- An element with everything below it. -/
inductive Unfolding where
  | node (id : ElementId) (kind : Kind) (origin : Origin) (children : List Unfolding)

namespace Unfolding

def id : Unfolding → ElementId
  | node i _ _ _ => i

def kind : Unfolding → Kind
  | node _ k _ _ => k

def origin : Unfolding → Origin
  | node _ _ o _ => o

def children : Unfolding → List Unfolding
  | node _ _ _ us => us

mutual

/-- What is collected from an unfolding; `f` adds an element to what was collected below it. -/
def collect {α : Type} (f : Unfolding → List α → List α) : Unfolding → List α
  | node i k o us => f (node i k o us) (collectAll f us)

def collectAll {α : Type} (f : Unfolding → List α → List α) : List Unfolding → List α
  | [] => []
  | u :: us => collect f u ++ collectAll f us

end

/-- The elements of an unfolding in pre-order, without those below an element where `stop` holds. -/
def preorderUntil (stop : Kind → Bool) : Unfolding → List (ElementId × Kind) :=
  collect fun u below => (u.id, u.kind) :: if stop u.kind then [] else below

def preorder (u : Unfolding) : List (ElementId × Kind) := u.preorderUntil fun _ => false

mutual

def outline (depth : Nat) : Unfolding → String
  | node i k o us =>
    let place := (o.location.map fun l => " @" ++ l.place).getD ""
    String.ofList (List.replicate (2 * depth) ' ') ++ idText i ++ " " ++ k.text ++ place ++ "\n" ++
      outlineAll (depth + 1) us

def outlineAll (depth : Nat) : List Unfolding → String
  | [] => ""
  | u :: us => outline depth u ++ outlineAll depth us

end

end Unfolding

namespace Tree

def unfoldTo (t : Tree) : Nat → ElementId → Option Unfolding
  | 0, _ => none
  | depth + 1, id =>
    (t.element? id).map fun e =>
      .node id e.kind e.origin (e.kind.children.filterMap (t.unfoldTo depth))

def unfold (t : Tree) (id : ElementId) : Option Unfolding := t.unfoldTo t.size id

def unfoldRoot (t : Tree) : Option Unfolding := t.root.bind t.unfold

def dump (t : Tree) : String := (t.unfoldRoot.map (·.outline 0)).getD ""

end Tree

end Clausal
