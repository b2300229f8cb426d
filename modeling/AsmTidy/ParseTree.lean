import AsmTidy.Layout
import AsmTidy.Text.UpperCase

/-!
# Parse trees of operands

A general form of an operand: a tree whose leaves are lexemes, each tagged with the kind of
its terminal. Flattening a tree prints its leaves in order.

- An operator is printed as `, ` if it is a comma, and with a space on each side otherwise.
- A register is printed in capitals, by full Unicode upper-casing.
- Any other lexeme is printed as it is.

`Operand.tree` gives the tree of an operand that the line reader built. Flattening it prints
the operand as the layout does.
-/

namespace AsmTidy

/-- The kind of a lexeme in a parse tree. -/
inductive LeafKind where
  | operator
  | register
  /-- Any other terminal, by its name. -/
  | other (name : String)
deriving DecidableEq, Repr

/-- A tree of lexemes. -/
inductive ParseTree where
  | leaf (kind : LeafKind) (text : List Char)
  | node (children : List ParseTree)
deriving Repr, Inhabited

/-- How one lexeme is printed. -/
def LeafKind.print : LeafKind → List Char → List Char
  | .operator, text => Expr.showOperator text
  | .register, text => Text.upper text
  | .other _, text => text

mutual

/-- Print a tree: its leaves in order. -/
def ParseTree.flatten : ParseTree → List Char
  | .leaf kind text => kind.print text
  | .node children => ParseTree.flattenAll children

/-- Print a row of trees, one after the other. -/
def ParseTree.flattenAll : List ParseTree → List Char
  | [] => []
  | t :: ts => t.flatten ++ ParseTree.flattenAll ts

end

/-- The tree of an expression: a literal is a leaf, a chain is a node of the literal, the
operator and the rest, and a group is a node of its parentheses and its inside. -/
def Expr.tree : Expr → ParseTree
  | .atom lit => .leaf (.other "literal") lit
  | .chain lit op right => .node [.leaf (.other "literal") lit, .leaf .operator op, right.tree]
  | .group inner =>
    .node [.leaf (.other "paren") ['('], inner.tree, .leaf (.other "paren") [')']]

/-- The tree of an operand: the register alone, or the `#` and the selector, when written,
before the tree of the expression. -/
def Operand.tree : Operand → ParseTree
  | .register name => .leaf .register name
  | .value immediate selector e =>
    .node ((if immediate then [.leaf (.other "immediate") ['#']] else []) ++
      (selector.map fun s => .leaf (.other "selector") s).toList ++ [e.tree])

end AsmTidy
