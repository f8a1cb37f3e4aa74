import Clausal.Tree.Basic

/-! # The arena as a table

One row for each element of the arena, in a frame of box characters. Columns are as wide as their widest
cell, with a blank on both sides. -/

namespace Clausal

namespace Table

def pad (width : Nat) (s : String) : String :=
  s ++ String.ofList (List.replicate (width - s.length) ' ')

/-- A line across all columns: its left end, what fills it, its joints and its right end. -/
def rule (left fill joint right : String) (widths : List Nat) : String :=
  left ++ joint.intercalate (widths.map fun w => String.join (List.replicate (w + 2) fill)) ++ right

def row (widths : List Nat) (cells : List String) : String :=
  "│" ++ "┆".intercalate ((widths.zip cells).map fun (w, c) => " " ++ pad w c ++ " ") ++ "│"

def widths (rows : List (List String)) (columns : Nat) : List Nat :=
  (List.range columns).map fun i =>
    rows.foldl (fun w cells => max w (((cells[i]?).map String.length).getD 0)) 0

/-- A table with a header. There are lines between rows, and none below the last. -/
def render (header : List String) (rows : List (List String)) : String :=
  let ws := widths (header :: rows) header.length
  let body := (rows.map fun cells => [row ws cells]).intersperse [rule "├" "╌" "┼" "┤" ws]
  "\n".intercalate
    ([rule "┌" "─" "┬" "┐" ws, row ws header, rule "╞" "═" "╪" "╡" ws] ++ body.flatten ++
      [rule "└" "─" "┴" "┘" ws])

end Table

namespace Tree

def tableRow (id : ElementId) (e : Element) (reachable : Bool) : List String :=
  [idText id, e.kind.name, (e.parent.map idText).getD "-",
    (e.origin.location.map Location.place).getD "synthetic", if reachable then "yes" else "no"]

def table (t : Tree) : String :=
  let reachable := t.reachable
  Table.render ["id", "kind", "parent", "location", "reachable"]
    (t.elements.toList.zipIdx.map fun (e, id) => tableRow id e (reachable.contains id))

end Tree

end Clausal
