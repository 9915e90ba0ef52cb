import Leviathan.Frontend.Lexer

/-!
# The syntax tree

`Ast.hpp`.  A node is the record of its plain fields together with its children; a null
pointer is `none`.  The fields of a rule declaration are left out: the rule engine takes
these declarations out of the tree before anything here looks at it.

Some fields are annotations.  No source text spells them: the resolver, the rule stage or the
checker fills them in and every run of that stage fills them in again.
-/

namespace Leviathan.Syntax

open Frontend (TokenKind SourceSpan)

/-- `enum class SymbolKind`. -/
inductive SymbolKind where
  | Namespace | Class | Function | Var | TypeParam | Primitive
deriving DecidableEq, Repr

/-- What a pointer to a declaration says: which one it is. -/
abbrev DeclId := Nat

/-- `struct Symbol`, as far as a copy of a tree looks at it. -/
structure Symbol where
  id : Nat
  kind : SymbolKind
  name : Str
  decl : Option DeclId
deriving DecidableEq

inductive Access where
  | Default | Public | Private
deriving DecidableEq, Repr

inductive TypeKind where
  | Named | Union | Inferred | Function
deriving DecidableEq, Repr

/-- The plain fields of `struct TypeRef`; `canonical` and `resolvedSymbol` are annotations. -/
structure TypeInfo where
  kind : TypeKind
  span : SourceSpan := ⟨0, 0⟩
  path : List Str := []
  name : Str := []
  canonical : Str := []
  resolvedSymbol : Option Symbol := none
  holeBind : Str := []
  holeField : Str := []
deriving DecidableEq

inductive TypeRef where
  | mk (info : TypeInfo) (generics members funcParams : List TypeRef) (funcRet : Option TypeRef)

/-- `struct Selector`. -/
structure Selector where
  symbolic : Bool := false
  text : Str := []
  span : SourceSpan := ⟨0, 0⟩
deriving DecidableEq

inductive ExprKind where
  | IntLit | FloatLit | StringLit | BoolLit
  | Name | This | Member | Call | Index | Unary | Binary | Ternary | Array | Lambda
  | Await | Inject | Extract | Range | Is | Match | ForSplice | ForkSplice
deriving DecidableEq, Repr

/-- The plain fields of `struct Expr`; those from `charLit` on, `argLabel` apart, are
annotations. -/
structure ExprInfo where
  kind : ExprKind
  span : SourceSpan := ⟨0, 0⟩
  text : Str := []
  op : TokenKind := .End
  colon : Bool := false
  optChain : Bool := false
  isComptime : Bool := false
  isMacroCall : Bool := false
  isRawSegment : Bool := false
  isQuasiPayload : Bool := false
  isRawString : Bool := false
  singleQuoted : Bool := false
  charLit : Bool := false
  weakField : Bool := false
  weakDirect : Bool := false
  resolved : Option DeclId := none
  evalKind : Int := 0
  mayBeValueStruct : Bool := true
  definiteValueStruct : Bool := false
  resolvedClass : Option Symbol := none
  valueClass : Option Symbol := none
  hygienicDecl : Option DeclId := none
  argLabel : Str := []
  argsNormalized : Bool := false
  genericStaticSite : Bool := false
  genericStaticParam : Str := []
deriving DecidableEq

inductive StmtKind where
  | Namespace | Class | Member | Bind | Enum | Rule
  | Var | Block | ExprStmt | Return | If | While | For | ForIn | Use | UsesImport
  | Try | Throw | Empty | Break | Continue | DoWhile | ForSplice | ForkSplice
deriving DecidableEq, Repr

/-- The plain fields of `struct Stmt`.  The annotations are `blockScope`, `enclosingNs`,
`useResolvedNs`, `useResolvedTypeKey`, `usingClose`, `labelTarget`, `isSynthEq`, and the fields
from `specializationRequired` on. -/
structure StmtInfo where
  kind : StmtKind
  span : SourceSpan := ⟨0, 0⟩
  access : Access := .Default
  name : Str := []
  hasNameSynth : Bool := false
  blockScope : Option Nat := none
  enclosingNs : Option Symbol := none
  isInterface : Bool := false
  isValue : Bool := false
  isAttribute : Bool := false
  generics : List Str := []
  useResolvedNs : Option Symbol := none
  useResolvedTypeKey : Str := []
  isCtor : Bool := false
  isGet : Bool := false
  isSet : Bool := false
  isMutating : Bool := false
  distinct : Bool := false
  isConst : Bool := false
  isReadonly : Bool := false
  isWeak : Bool := false
  isUsing : Bool := false
  usingClose : Option DeclId := none
  label : Str := []
  labelTarget : Option DeclId := none
  isSynthEq : Bool := false
  isSpliceSite : Bool := false
  callable : Bool := false
  selector : Selector := {}
  inferred : Bool := false
  isComptime : Bool := false
  isMacroDecl : Bool := false
  isProceduralMacro : Bool := false
  specializationRequired : Bool := false
  isSpecialization : Bool := false
  specializationOf : Option DeclId := none
  specializationClass : Option Symbol := none
  instantiationSpan : SourceSpan := ⟨0, 0⟩
  forInProtocol : Bool := false
deriving DecidableEq

/-- The plain fields of `struct AttrUse`; the last three are annotations. -/
structure AttrInfo where
  path : List Str := []
  name : Str := []
  span : SourceSpan := ⟨0, 0⟩
  resolved : Option Symbol := none
  consumed : Bool := false
  considered : Bool := false
deriving DecidableEq

/-- The plain fields of `struct Param`. -/
structure ParamInfo where
  name : Str
  isConst : Bool := false
  span : SourceSpan := ⟨0, 0⟩
  defaultFolded : Bool := false
deriving DecidableEq

/-- The plain fields of `struct MatchArm`. -/
structure ArmInfo where
  isElse : Bool := false
  span : SourceSpan := ⟨0, 0⟩
deriving DecidableEq

mutual

inductive Expr where
  | mk (info : ExprInfo) (a b c : Option Expr) (list : List Expr)
      (explicitTypeArgs : List TypeRef) (params : List Param) (block : Option Stmt)
      (arms : List MatchArm) (type : Option TypeRef)

inductive Param where
  | mk (info : ParamInfo) (type : Option TypeRef) (defaultValue : Option Expr)

inductive MatchArm where
  | mk (info : ArmInfo) (type : Option TypeRef) (value bodyExpr : Option Expr)
      (bodyBlock : Option Stmt)

inductive AttrUse where
  | mk (info : AttrInfo) (args : List Expr)

inductive CatchClause where
  | mk (name : Str) (type : Option TypeRef) (body : Option Stmt)

inductive Stmt where
  | mk (info : StmtInfo) (nameSynthArgs : List Expr) (attrs : List AttrUse)
      (body : List Stmt) (bases : List TypeRef) (type : Option TypeRef) (params : List Param)
      (memberBody : Option Stmt) (init expr : Option Expr)
      (thenBranch elseBranch forInit : Option Stmt) (forStep : Option Expr)
      (catches : List CatchClause)

end

namespace TypeRef

def info : TypeRef → TypeInfo
  | .mk info .. => info

def generics : TypeRef → List TypeRef
  | .mk _ generics .. => generics

def ofInfo (info : TypeInfo) : TypeRef := .mk info [] [] [] none

end TypeRef

namespace Expr

def info : Expr → ExprInfo
  | .mk info .. => info

/-- A node without children. -/
def leaf (info : ExprInfo) : Expr := .mk info none none none [] [] [] none [] none

end Expr

namespace Stmt

def info : Stmt → StmtInfo
  | .mk info .. => info

def body : Stmt → List Stmt
  | .mk _ _ _ body .. => body

def expr : Stmt → Option Expr
  | .mk _ _ _ _ _ _ _ _ _ expr .. => expr

def memberBody : Stmt → Option Stmt
  | .mk _ _ _ _ _ _ _ memberBody .. => memberBody

/-- A node without children. -/
def leaf (info : StmtInfo) : Stmt :=
  .mk info [] [] [] [] none [] none none none none none none none []

/-- A block. -/
def block (body : List Stmt) : Stmt :=
  .mk { kind := .Block } [] [] body [] none [] none none none none none none none []

end Stmt

end Leviathan.Syntax
