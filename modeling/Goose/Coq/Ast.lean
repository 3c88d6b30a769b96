import Goose.Coq.Text

/-! The syntax tree of the printer. In the source `Type` and `Expr` are the same Go interface
(`Coq() string`), so a type is an `Expr` here; the five implementations of `Decl` are
structures. A nil interface value is not a tree and has no counterpart. -/

namespace Goose.Coq

/-- `BinOp` is a Go `int`; the declared operators are the `iota` constants below. -/
abbrev BinOp := Int

def opPlus : BinOp := 0
def opMinus : BinOp := 1
def opEquals : BinOp := 2
def opLessThan : BinOp := 3
def opGreaterThan : BinOp := 4
def opLessEq : BinOp := 5
def opGreaterEq : BinOp := 6
def opAppend : BinOp := 7
def opMul : BinOp := 8

mutual
inductive Expr where
  | gallinaIdent (s : List Char)
  | identExpr (s : List Char)
  | gallinaString (s : List Char)
  | callExpr (methodName : List Char) (args : List Expr)
  | structFieldAccessExpr (struct field : List Char) (x : Expr) (throughPointer : Bool)
  | returnExpr (value : Expr)
  | structLiteral (structName : List Char) (elts : List FieldVal) (allocation : Bool)
  | boolLiteral (b : Bool)
  | unitLiteral
  | intLiteral (value : UInt64)
  | int32Literal (value : UInt32)
  | stringLiteral (value : List Char)
  | binaryExpr (x : Expr) (op : BinOp) (y : Expr)
  | notExpr (x : Expr)
  | tupleExpr (es : List Expr)
  | blockExpr (bindings : List Binding)
  | derefExpr (x : Expr)
  | refExpr (x : Expr)
  | storeStmt (dst x : Expr)
  | ifExpr (cond thn els : Expr)
  | hashTableInsert (value : Expr)
  | forLoopExpr (init : Binding) (cond post : Expr) (body : List Binding)
  | mapIterExpr (keyIdent valueIdent : List Char) (map : Expr) (body : List Binding)
  | spawnExpr (body : List Binding)
  | typeIdent (s : List Char)
  | structName (s : List Char)
  | mapType (value : Expr)
  | sliceType (value : Expr)
  | tupleType (types : List Expr)
  | ptrType (value : Expr)

/-- A line of a block: anonymous without names, a tuple destructuring with two. -/
inductive Binding where
  | mk (names : List (List Char)) (expr : Expr)

/-- `fieldVal`, one field of a struct literal. -/
inductive FieldVal where
  | mk (field : List Char) (value : Expr)
end

def Binding.names : Binding → List (List Char)
  | .mk names _ => names

def Binding.expr : Binding → Expr
  | .mk _ e => e

def FieldVal.field : FieldVal → List Char
  | .mk f _ => f

def FieldVal.value : FieldVal → Expr
  | .mk _ v => v

@[simp] theorem Binding.names_mk (names : List (List Char)) (e : Expr) :
    (Binding.mk names e).names = names := rfl

@[simp] theorem Binding.expr_mk (names : List (List Char)) (e : Expr) :
    (Binding.mk names e).expr = e := rfl

@[simp] theorem FieldVal.value_mk (f : List Char) (v : Expr) : (FieldVal.mk f v).value = v := rfl

/-- `NewAnon`. -/
def newAnon (e : Expr) : Binding := .mk [] e

def Binding.isAnonymous (b : Binding) : Bool := b.names.isEmpty

/-- `Binding.Unwrap`: the expression of a binding expected to be anonymous. -/
def Binding.unwrap (b : Binding) : Option Expr := if b.isAnonymous then some b.expr else none

/-- `Tt`, `Skip`, `LoopContinue` and `LoopBreak`. -/
def tt : Expr := .unitLiteral
def skip : Expr := .gallinaIdent "Skip".toList
def loopContinue : Expr := .gallinaIdent "Continue".toList
def loopBreak : Expr := .gallinaIdent "Break".toList

/-- `NewCallExpr`: a call without arguments gets the unit argument. -/
def newCallExpr (name : List Char) (args : List Expr) : Expr :=
  .callExpr name (if args.isEmpty then [tt] else args)

/-- `StructDesc`: the Gallina name of a struct's descriptor. -/
def structDesc (name : List Char) : Expr := .gallinaIdent (name ++ ".S".toList)

/-- `NewTuple` and `NewTupleType` do not wrap a single element. -/
def newTuple : List Expr → Expr
  | [e] => e
  | es => .tupleExpr es

def newTupleType : List Expr → Expr
  | [t] => t
  | ts => .tupleType ts

/-- `StructMethod`: the Gallina name of a method. -/
def structMethod (structName methodName : List Char) : List Char :=
  structName ++ "__".toList ++ methodName

mutual
/-- `P` holds at every node of an expression. -/
def Expr.Every (P : Expr → Prop) (e : Expr) : Prop :=
  P e ∧ match e with
  | .callExpr _ args => Expr.EveryList P args
  | .structFieldAccessExpr _ _ x _ => x.Every P
  | .returnExpr v => v.Every P
  | .structLiteral _ elts _ => FieldVal.EveryList P elts
  | .binaryExpr x _ y => x.Every P ∧ y.Every P
  | .notExpr x => x.Every P
  | .tupleExpr es => Expr.EveryList P es
  | .blockExpr bs => Binding.EveryList P bs
  | .derefExpr x => x.Every P
  | .refExpr x => x.Every P
  | .storeStmt d x => d.Every P ∧ x.Every P
  | .ifExpr c t e => c.Every P ∧ t.Every P ∧ e.Every P
  | .hashTableInsert v => v.Every P
  | .forLoopExpr (.mk _ i) c p body => i.Every P ∧ c.Every P ∧ p.Every P ∧ Binding.EveryList P body
  | .mapIterExpr _ _ m body => m.Every P ∧ Binding.EveryList P body
  | .spawnExpr body => Binding.EveryList P body
  | .mapType v => v.Every P
  | .sliceType v => v.Every P
  | .tupleType ts => Expr.EveryList P ts
  | .ptrType v => v.Every P
  | _ => True

def Expr.EveryList (P : Expr → Prop) : List Expr → Prop
  | [] => True
  | e :: es => e.Every P ∧ Expr.EveryList P es

def Binding.EveryList (P : Expr → Prop) : List Binding → Prop
  | [] => True
  | .mk _ e :: bs => e.Every P ∧ Binding.EveryList P bs

def FieldVal.EveryList (P : Expr → Prop) : List FieldVal → Prop
  | [] => True
  | .mk _ v :: fs => v.Every P ∧ FieldVal.EveryList P fs
end

@[simp] theorem Expr.everyList_iff (P : Expr → Prop) : ∀ es : List Expr,
    Expr.EveryList P es ↔ ∀ e ∈ es, e.Every P
  | [] => by simp [Expr.EveryList]
  | e :: es => by simp [Expr.EveryList, Expr.everyList_iff P es]

@[simp] theorem Binding.everyList_iff (P : Expr → Prop) : ∀ bs : List Binding,
    Binding.EveryList P bs ↔ ∀ b ∈ bs, b.expr.Every P
  | [] => by simp [Binding.EveryList]
  | .mk _ e :: bs => by simp [Binding.EveryList, Binding.expr, Binding.everyList_iff P bs]

@[simp] theorem FieldVal.everyList_iff (P : Expr → Prop) : ∀ fs : List FieldVal,
    FieldVal.EveryList P fs ↔ ∀ f ∈ fs, f.value.Every P
  | [] => by simp [FieldVal.EveryList]
  | .mk _ v :: fs => by simp [FieldVal.EveryList, FieldVal.value, FieldVal.everyList_iff P fs]

/-- `FieldDecl`: a name with its type, for struct fields and function binders. -/
structure FieldDecl where
  name : List Char
  type : Expr

structure StructDecl where
  name : List Char
  fields : List FieldDecl
  comment : List Char

structure TypeDecl where
  name : List Char
  body : Expr

structure FuncDecl where
  name : List Char
  args : List FieldDecl
  returnType : Expr
  body : Expr
  comment : List Char
  addTypes : Bool

structure ConstDecl where
  name : List Char
  val : Expr
  comment : List Char

inductive Decl where
  | funcDecl (d : FuncDecl)
  | structDecl (d : StructDecl)
  | typeDecl (d : TypeDecl)
  | constDecl (d : ConstDecl)
  | commentDecl (s : List Char)

structure File where
  goPackage : List Char
  decls : List Decl

end Goose.Coq
