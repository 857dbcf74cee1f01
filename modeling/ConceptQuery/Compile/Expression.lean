import ConceptQuery.Compile.Shape

/-! # Compiling expressions

Every name in an expression is resolved against the environment at hand. A name
that is not known yet blocks the expression: whoever asked may try again later,
when more concepts are known, or give up.
-/
namespace ConceptQuery.Compile

/-- Why something cannot be compiled, for now or for good. -/
inductive Blocker where
  | unresolved (name : String) (line : Nat)
  | failed (error : CompileError)
deriving DecidableEq, Inhabited

/-- The error of someone who does not wait. -/
def Blocker.error : Blocker → CompileError
  | unresolved name line => .undefinedConcept name line
  | failed error => error

def orFail {α : Type} : Except CompileError α → Except Blocker α
  | .ok a => .ok a
  | .error e => .error (.failed e)

def resolveLater (env : Environment) (name : String) (line : Nat) : Except Blocker String :=
  match env.resolve? name with
  | some address => .ok address
  | none => .error (.unresolved name line)

def resolveNow (env : Environment) (name : String) (line : Nat) : Except CompileError String :=
  match env.resolve? name with
  | some address => .ok address
  | none => .error (.undefinedConcept name line)

/-- The values of a list of results, or the first error in it. -/
def inSequence {ε α : Type} : List (Except ε α) → Except ε (List α)
  | [] => .ok []
  | .ok a :: rest =>
    match inSequence rest with
    | .ok as => .ok (a :: as)
    | .error e => .error e
  | .error e :: _ => .error e

/-- A part that an expression on this line has to have. -/
def part {α : Type} (line : Nat) (message : String) (value : Option α) : Except Blocker α :=
  orFail (need "expression" line message value)

def operand (line : Nat) (operands : List (Except Blocker Expr)) (index : Nat) :
    Except Blocker Expr :=
  match operands[index]? with
  | some result => result
  | none => .error (.failed (.malformed "expression" line "missing operand"))

def conceptExpr (env : Environment) (line : Nat) (node : Tree Leaf) : Except Blocker Expr := do
  let leaf ← part line "missing concept" node.identifiers.head?
  let address ← resolveLater env leaf.text (leafLine leaf line)
  return .concept address

def literalExpr (line : Nat) (node : Tree Leaf) : Except Blocker Expr := do
  let leaf ← part line "missing literal" node.ownLeaves.head?
  let value ← part line "bad literal" (literalOf? leaf)
  return .literal value

def typeExpr (line : Nat) (node : Tree Leaf) : Except Blocker Expr := do
  let leaf ← part line "missing type" node.ownLeaves.head?
  match DataType.ofName? leaf.text with
  | some datatype => return .type datatype
  | none => throw (.failed (.unknownDatatype leaf.text line))

/-- The name of a call, which has to be that of a known function. -/
def functionName (line : Nat) (node : Tree Leaf) : Except Blocker String := do
  let leaf ← part line "missing function" node.ownLeaves.head?
  if Function.isKnown leaf.text then return Text.lowered leaf.text
  else throw (.failed (.unknownFunction leaf.text line))

def binaryOp (line : Nat) (node : Tree Leaf) : Except Blocker BinaryOp := do
  let leaf ← part line "missing operator" node.ownLeaves.head?
  part line "unknown operator" (BinaryOp.ofToken? leaf.text)

mutual
/-- The expression that a node stands for. -/
def expr (env : Environment) : Tree Leaf → Except Blocker Expr
  | .leaf leaf => .error (.failed (.malformed "expression" (leafLine leaf 1) "not an expression"))
  | .node kind children =>
    let node : Tree Leaf := .node kind children
    let line := lineOf node
    match kind with
    | .conceptLiteral => conceptExpr env line node
    | .literal => literalExpr line node
    | .typeLiteral => typeExpr line node
    | .callExpression => do
      let function ← functionName line node
      let arguments ← inSequence (argumentExprs env children)
      return .call function arguments
    | .parenExpression => do
      let inner ← operand line (nodeExprs env children) 0
      return .paren inner
    | .binaryExpression => do
      let op ← binaryOp line node
      let operands := nodeExprs env children
      let lhs ← operand line operands 0
      let rhs ← operand line operands 1
      return .binary op lhs rhs
    | .unaryExpression => do
      let inner ← operand line (nodeExprs env children) 0
      return .unary (if node.hasKeyword "not" then .not else .neg) inner
    | .isNullExpression => do
      let inner ← operand line (nodeExprs env children) 0
      return .isNull inner (node.hasKeyword "not")
    | .inExpression => do
      let operands := nodeExprs env children
      let first ← operand line operands 0
      let items ← inSequence operands.tail
      return .inList first items (node.hasKeyword "not")
    | _ => .error (.failed (.malformed "expression" line "not an expression"))

/-- What the child nodes stand for, one result each. -/
def nodeExprs (env : Environment) : List (Tree Leaf) → List (Except Blocker Expr)
  | [] => []
  | .leaf _ :: rest => nodeExprs env rest
  | .node kind children :: rest => expr env (.node kind children) :: nodeExprs env rest

/-- What the children of the first argument list stand for. -/
def argumentExprs (env : Environment) : List (Tree Leaf) → List (Except Blocker Expr)
  | [] => []
  | .leaf _ :: rest => argumentExprs env rest
  | .node kind children :: rest =>
    if kind = .argumentList then nodeExprs env children else argumentExprs env rest
end

/-- The expression of a node whose names all have to be known. -/
def exprNow (env : Environment) (node : Tree Leaf) : Except CompileError Expr :=
  (expr env node).mapError Blocker.error

end ConceptQuery.Compile
