import QueryGraph.Enumeration

/-!
# Kinds of expressions

The kinds of nodes that an expression may have, the classes that typing and
evaluation speak of, and the spelling of operators in queries.

Main definitions:

- {lit}`ExprKind.isBinary`: the kinds that join two operands.
- {lit}`ExprKind.symbol`, {lit}`ExprKind.ofSymbol?`: writing and reading an
  operator.
-/

namespace QueryGraph

/-- The kind of an expression node. -/
inductive ExprKind where
  | and
  | or
  | not
  | equal
  | notEqual
  | less
  | lessEqual
  | greater
  | greaterEqual
  | plus
  | minus
  | multiply
  | divide
  | modulo
  | concatenate
  | like
  | isIn
  | isNull
  | function
  | field
  | const
deriving DecidableEq, Repr

namespace ExprKind

instance : Enumeration ExprKind where
  members :=
    [.and, .or, .not, .equal, .notEqual, .less, .lessEqual, .greater, .greaterEqual, .plus,
      .minus, .multiply, .divide, .modulo, .concatenate, .like, .isIn, .isNull, .function,
      .field, .const]
  tag
    | .and => "And"
    | .or => "Or"
    | .not => "Not"
    | .equal => "Equal"
    | .notEqual => "NotEqual"
    | .less => "Lth"
    | .lessEqual => "Leq"
    | .greater => "Gth"
    | .greaterEqual => "Geq"
    | .plus => "Plus"
    | .minus => "Minus"
    | .multiply => "Multiply"
    | .divide => "Divide"
    | .modulo => "Modular"
    | .concatenate => "Concatenate"
    | .like => "Like"
    | .isIn => "In"
    | .isNull => "IsNull"
    | .function => "Function"
    | .field => "Field"
    | .const => "Const"
  mem_members a := by cases a <;> decide
  tags_nodup := by decide

/-- The binary connectives. -/
def isLogical : ExprKind → Bool
  | .and | .or => true
  | _ => false

/-- The order and equality tests. -/
def isComparison : ExprKind → Bool
  | .equal | .notEqual | .less | .lessEqual | .greater | .greaterEqual => true
  | _ => false

/-- The operations on numbers. -/
def isArithmetic : ExprKind → Bool
  | .plus | .minus | .multiply | .divide | .modulo => true
  | _ => false

/-- The kinds that join two operands and can be typed and evaluated. -/
def isBinary (k : ExprKind) : Bool :=
  k.isLogical || k.isComparison || k.isArithmetic || k = .concatenate

/-- The spelling of a kind in queries. -/
def symbol : ExprKind → String
  | .and => "AND"
  | .or => "OR"
  | .not => "NOT"
  | .equal => "="
  | .notEqual => "<>"
  | .less => "<"
  | .lessEqual => "<="
  | .greater => ">"
  | .greaterEqual => ">="
  | .plus => "+"
  | .minus => "-"
  | .multiply => "*"
  | .divide => "/"
  | .modulo => "%"
  | .concatenate => "||"
  | .like => "LIKE"
  | .isIn => "IN"
  | .isNull => "IS NULL"
  | .function => "FUNCTION"
  | .field => "FIELD"
  | .const => "CONST"

/-- The characters with the Unicode property White_Space. -/
def isBlank (c : Char) : Bool :=
  let n := c.toNat
  (0x9 ≤ n && n ≤ 0xD) || n = 0x20 || n = 0x85 || n = 0xA0 || n = 0x1680
    || (0x2000 ≤ n && n ≤ 0x200A) || n = 0x2028 || n = 0x2029 || n = 0x202F
    || n = 0x205F || n = 0x3000

/-- A text without the blanks at its ends. -/
def trimBlanks (text : List Char) : List Char :=
  ((text.dropWhile isBlank).reverse.dropWhile isBlank).reverse

/-- The operators that join two operands. -/
def binaryKinds : List ExprKind :=
  (Enumeration.members : List ExprKind).filter isBinary

/-- Reads the spelling of an operator that joins two operands.  Blanks around it
and the case of letters do not matter, and inequality has a second spelling.
Folding ASCII letters is enough: no other letter has an operator's letter as its
capital. -/
def ofSymbol? (text : String) : Option ExprKind :=
  let spelling := String.ofList ((trimBlanks text.toList).map Char.toUpper)
  if spelling = "!=" then some .notEqual
  else binaryKinds.find? (symbol · = spelling)

end ExprKind

end QueryGraph
