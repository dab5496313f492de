/-!
# Trees of script modules

A parsed TypeScript or JavaScript module is a tree of nodes. A node has a role, the way in which its
place in the tree uses it, a form, what it is, a byte range of the source, and children in the order in
which walks visit them. A slot that the source leaves empty holds a node of form `absent`.

* `Role`, `Form`, `Node` — the tree
* `Node.boundNames` — the names that a pattern introduces
* `Node.all` — a node and everything below it, in visiting order
-/

namespace Refactor.Script

/-- How the place of a node uses it. -/
inductive Role where
  /-- evaluated for its value -/
  | expr
  | stmt
  /-- a binding or assignment pattern -/
  | pat
  /-- an import or export at module level -/
  | item
  | plain
deriving DecidableEq, Repr

/-- Sorts of literals. -/
inductive Literal where
  | string | number | boolean | null | regex | bigint
deriving DecidableEq, Repr

/-- Sorts of variable declarations: `const`, `let` and `var`. -/
inductive VarKind where
  | fixed | lexical | hoisted
deriving DecidableEq, Repr

def VarKind.keyword : VarKind → String
  | .fixed => "const"
  | .lexical => "let"
  | .hoisted => "var"

/-- Sorts of declarations of named types. -/
inductive TypeDecl where
  | interface | alias | enumeration
deriving DecidableEq, Repr

/-- What a node is. The comment gives the children, where their place matters. -/
inductive Form where
  | absent
  /-- an identifier that names a variable, a type or a label; children: its type annotation -/
  | ident (name : String)
  /-- a name that is no identifier of its own, such as a property -/
  | label
  | thisRef | superRef | importRef
  | literal (kind : Literal)
  /-- children: the expressions between the texts -/
  | template
  | taggedTemplate
  | array | object
  /-- `a` in an object literal -/
  | shorthand (name : String)
  /-- `a = b` in an object literal that turns out to be a pattern -/
  | shorthandDefault (name : String)
  | keyValue
  | computedKey
  /-- children: key and function -/
  | method
  | getter | setter
  | spread
  /-- children: name and function -/
  | functionExpr
  /-- children: name and class -/
  | classExpr
  /-- children: group of parameters, body, type parameters, return type -/
  | arrow
  /-- children: parameters, decorators, body, type parameters, return type -/
  | functionBody
  | group
  | param | paramProperty
  /-- children: decorators, members, superclass, the rest -/
  | classBody
  | constructorMember | classMethod | classField | privateField | accessorField | staticBlock
  | decorator
  | unary | binary | conditional | sequence | paren
  /-- children: the argument -/
  | update
  /-- children: target and value -/
  | assign (compound : Bool)
  /-- children: callee and arguments -/
  | call
  | construct
  | member | optionalChain
  | yieldExpr | awaitExpr
  | typeAs | typeAssertion | nonNull | instantiation
  | jsx
  | arrayPat | objectPat | restPat | exprPat
  /-- children: pattern and default -/
  | assignPat
  /-- children: key and pattern -/
  | keyValuePat
  /-- children: identifier and default -/
  | shorthandPat
  | exprStmt | empty | debugger
  | block
  | withStmt
  | returnStmt
  | labeled (name : String)
  | breakStmt (label : Option String)
  | continueStmt (label : Option String)
  | ifStmt
  | switchStmt
  /-- children: test and statements -/
  | switchCase
  | throwStmt
  | tryStmt
  /-- children: parameter and body -/
  | catchClause
  | whileStmt
  /-- children: test and body -/
  | doWhile
  /-- children: start, test, update and body -/
  | forStmt
  | forIn
  | forOf (isAwait : Bool)
  /-- children: declarators -/
  | varDecl (kind : VarKind)
  /-- variables that are disposed of with their block; children: declarators -/
  | usingDecl
  /-- children: pattern and initializer -/
  | declarator
  /-- children: name and function -/
  | functionDecl (name : String)
  /-- children: name and class -/
  | classDecl (name : String)
  /-- children: name and the rest -/
  | typeDecl (kind : TypeDecl) (name : String)
  | enumMember
  | namespaceDecl
  /-- children: the module specifier and the names -/
  | importDecl
  /-- children: the module specifier, absent for local names, and the names -/
  | exportNamed
  | exportAll
  /-- children: the declaration -/
  | exportDecl
  | exportDefault
  /-- children: the module specifier, absent for an internal name, and the name -/
  | importEquals
  | exportAssign
  | namespaceExport
  | moduleRoot
  /-- a type, or a part of one -/
  | typePart
deriving DecidableEq, Repr

/-- A node of the tree. -/
inductive Node where
  | mk (role : Role) (form : Form) (lo hi : Nat) (kids : List Node)
deriving Repr

namespace Node

instance : Inhabited Node := ⟨.mk .plain .absent 0 0 []⟩

def role : Node → Role
  | .mk r _ _ _ _ => r

def form : Node → Form
  | .mk _ f _ _ _ => f

/-- Byte offset of the first character. -/
def lo : Node → Nat
  | .mk _ _ l _ _ => l

/-- Byte offset after the last character. -/
def hi : Node → Nat
  | .mk _ _ _ h _ => h

def kids : Node → List Node
  | .mk _ _ _ _ ks => ks

/-- The empty slot. -/
def absent : Node := .mk .plain .absent 0 0 []

def isAbsent (n : Node) : Bool := n.form == .absent

/-- The child at a place, the empty slot when there is none. -/
def kid (n : Node) (i : Nat) : Node := n.kids.getD i absent

/-- The same node in another role. -/
def inRole (n : Node) (r : Role) : Node := .mk r n.form n.lo n.hi n.kids

/-- The same node over another range. -/
def startingAt (n : Node) (lo : Nat) : Node := .mk n.role n.form lo n.hi n.kids

def isExpr (n : Node) : Bool := n.role == .expr

def isStmt (n : Node) : Bool := n.role == .stmt

mutual

/-- A node and everything below it, in visiting order. -/
def all : Node → List Node
  | .mk r f l h ks => .mk r f l h ks :: allOf ks

/-- Everything in a list of nodes. -/
def allOf : List Node → List Node
  | [] => []
  | n :: ns => all n ++ allOf ns

end

mutual

/-- The names that a pattern introduces, with their places. -/
def boundNames : Node → List (String × Nat)
  | .mk _ (.ident name) lo _ _ => [(name, lo)]
  | .mk _ .arrayPat _ _ ks => boundNamesOf ks
  | .mk _ .objectPat _ _ ks => boundNamesOf ks
  | .mk _ .restPat _ _ ks => boundNamesOf ks
  | .mk _ .assignPat _ _ (p :: _) => boundNames p
  | .mk _ .keyValuePat _ _ (_ :: p :: _) => boundNames p
  | .mk _ .shorthandPat _ _ (p :: _) => boundNames p
  | _ => []

/-- The names that the elements of a pattern introduce. -/
def boundNamesOf : List Node → List (String × Nat)
  | [] => []
  | n :: ns => boundNames n ++ boundNamesOf ns

end

/-- Literals that stand for themselves: texts, numbers, truth values, `null` and templates without
expressions. -/
def isPlainLiteral (n : Node) : Bool :=
  match n.form with
  | .literal .string | .literal .number | .literal .boolean | .literal .null => true
  | .template => n.kids.isEmpty
  | _ => false

end Node

/-- A comment of the source: its byte range, and the place of the token that follows it. -/
structure Comment where
  next : Nat
  lo : Nat
  hi : Nat
deriving DecidableEq, Repr

/-- A parsed module: its tree and its comments in order. -/
structure Parsed where
  module : Node
  comments : List Comment
deriving Repr, Inhabited

namespace Parsed

/-- The statements and imports and exports at the top level. -/
def body (p : Parsed) : List Node := p.module.kids

/-- The comments right before the token at a place. -/
def leadingComments (p : Parsed) (lo : Nat) : List Comment := p.comments.filter (·.next == lo)

end Parsed

end Refactor.Script
