import Clausal.Proofs.Lowering.Pictures

/-! # The tree of a unit

What lowering returns shows what the syntax becomes (`Lower.Lowered`), and nothing besides.  As many elements are
stored as the module shows, so none is left behind (`Tree.ofUnit_translates`). -/

namespace Clausal

open Ast (Form Node)

namespace Tree

variable {t : Tree}

/-- A function with a part that is ignored, whose value comes from a match and whose fallback comes first. -/
def surplus : Ast.CompilationUnit :=
  let node (form : Form) (parts : List Node) : Node := .mk form ⟨default, none⟩ parts
  let choice := node .matchOf [node .otherwise [node .null []],
    node .whenClause [node (.boolean true) [], node (.identifier "a") [], node .null []]]
  let body := node .block
    [node (.letDecl "x") [choice, node .null []], node .returns [node (.identifier "x") []]]
  ⟨"m.t", "m", [node (.function "f" ["a"]) [body, node .null []]], none⟩

end Tree

end Clausal
