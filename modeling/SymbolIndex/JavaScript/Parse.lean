import SymbolIndex.JavaScript.Fault
import SymbolIndex.Syntax.Fault

/-!
# Syntax trees of source texts

Every text has a syntax tree (`programOf`). The tree of a text that is not well formed has a node
that says where the fault is; `parse` refuses such trees.
-/

namespace SymbolIndex.JavaScript

open Syntax

/-- The syntax tree of a well-formed text. -/
def parse (source : String) (path : Path) : Except Error SyntaxTree :=
  SyntaxTree.ofRoot (programOf source.toList) source path

end SymbolIndex.JavaScript
