import Goose.Coq.Ast
import Goose.Coq.Buffer

/-! The printer: `Coq()` of every expression and type, `CoqDecl()` of every declaration and
`File.Write`. A panic is `none`. `Coq()` is pure, so a node's rendering is computed from the
renderings of its children first; the multi-line nodes then run their buffer program
(`ifExprCoq`, `blockCoq`, …) on those renderings. `fmt.Sprintf` is inlined at each call. -/

namespace Goose.Coq

/-- `fmt.Sprintf("%d", n)`. -/
def decimal (n : Nat) : List Char := Nat.toDigits 10 n

def isWellBalanced (s lDelim rDelim : List Char) : Bool :=
  lDelim.isPrefixOf s && rDelim.isSuffixOf s

/-- `addParens`: no parentheses around a text without a space or one that looks enclosed. -/
def addParens (s : List Char) : List Char :=
  if ' ' ∉ s ∨ isWellBalanced s "(".toList ")".toList ∨ isWellBalanced s "\x7b|".toList "|\x7d".toList
  then s
  else "(".toList ++ s ++ ")".toList

/-- Reading `s` at depth `k + 1`, the depth falls to zero at its last character and not
before. -/
def parenClosesAtEnd : Nat → List Char → Bool
  | _, [] => false
  | k, c :: s =>
    if c = '(' then parenClosesAtEnd (k + 1) s
    else if c = ')' then
      match k with
      | 0 => s.isEmpty
      | k + 1 => parenClosesAtEnd k s
    else parenClosesAtEnd k s

/-- What `addParens` is meant to leave bare: a text without whitespace, or one parenthesised
group. `isWellBalanced` compares only the two ends, so it also passes a text that starts with `(`
and ends with `)` but whose first `(` closes early. -/
def isAtom (s : List Char) : Bool :=
  s.all (fun c => !c.isWhitespace) ||
    match s with
    | '(' :: t => parenClosesAtEnd 0 t
    | _ => false

def quote (s : List Char) : List Char :=
  if s = ['_'] then "<>".toList else '"' :: (s ++ ['"'])

def binder (s : List Char) : List Char :=
  if s = ['_'] then "<>".toList else quote s

/-- `CallExpr.Coq` from the rendered arguments. -/
def callCoq (methodName : List Char) (args : List (List Char)) : List Char :=
  join (methodName :: args.map addParens) [' ']

/-- The `coqBinOp` table of `BinaryExpr.Coq`. -/
def coqBinOp : List (BinOp × List Char) :=
  [(opPlus, "+".toList), (opMinus, "-".toList), (opEquals, "=".toList), (opAppend, "+".toList),
    (opMul, "*".toList), (opLessThan, "<".toList), (opGreaterThan, ">".toList),
    (opLessEq, "≤".toList), (opGreaterEq, "≥".toList)]

/-- `BinaryExpr.Coq`; an operator missing from the table panics. -/
def binaryCoq (x : List Char) (op : BinOp) (y : List Char) : Option (List Char) :=
  match coqBinOp.lookup op with
  | some b => some (x ++ " ".toList ++ b ++ " ".toList ++ y)
  | none => none

theorem mem_of_lookup {α β : Type} [BEq α] : ∀ {l : List (α × β)} {k : α} {b : β},
    l.lookup k = some b → ∃ a, (a, b) ∈ l
  | [], _, _, h => by cases h
  | (a, b') :: l, k, b, h => by
    rw [List.lookup_cons] at h
    split at h
    · cases h
      exact ⟨a, .head _⟩
    · obtain ⟨a', ha'⟩ := mem_of_lookup h
      exact ⟨a', .tail _ ha'⟩

theorem binaryCoq_some {x y s : List Char} {op : BinOp} (h : binaryCoq x op y = some s) :
    ∃ b, (∃ a, (a, b) ∈ coqBinOp) ∧ s = x ++ " ".toList ++ b ++ " ".toList ++ y := by
  unfold binaryCoq at h
  split at h
  · rename_i b hb
    exact ⟨b, mem_of_lookup hb, (Option.some.inj h).symm⟩
  · cases h

def tupleCoq (comps : List (List Char)) : Option (List Char) := do
  let body ← indent 1 (join comps ", ".toList)
  return "(".toList ++ body ++ ")".toList

/-- The loop bodies that end every element but the last with a terminator. -/
def terminated (sep : List Char) : List (List Char) → List (List Char)
  | [] => []
  | [x] => [x]
  | x :: y :: xs => (x ++ sep) :: terminated sep (y :: xs)

def structLiteralCoq (structName : List Char) (elts : List (List Char × List Char))
    (allocation : Bool) : Option (List Char) := do
  let method := if allocation then "struct.new".toList else "struct.mk".toList
  let pp ← Buffer.empty.addLine (method ++ " ".toList ++ structName ++ ".S [".toList)
  let pp ← (pp.indent 2).addLines
    (terminated ";".toList (elts.map fun (f, v) => quote f ++ " ::= ".toList ++ v))
  let pp ← (pp.indent (-2)).addLine "]".toList
  return pp.build

/-- The line `Binding.AddTo` adds for a binding that is not the last of its block; three or
more names panic. -/
def bindingLine (names : List (List Char)) (e : List Char) : Option (List Char) :=
  match names with
  | [] => some (e ++ ";;".toList)
  | [n] => some ("let: ".toList ++ binder n ++ " := ".toList ++ e ++ " in".toList)
  | [n0, n1] =>
    some ("let: (".toList ++ binder n0 ++ ", ".toList ++ binder n1 ++ ") := ".toList ++ e ++
      " in".toList)
  | _ => none

/-- `Binding.AddTo`, with the expression already rendered. -/
def addTo (names : List (List Char)) (e : List Char) (pp : Buffer) : Option Buffer := do
  pp.addLine (← bindingLine names e)

/-- The loop of `BlockExpr.Coq`: the last binding is the value of the block. -/
def blockLines (pp : Buffer) : List (List (List Char) × List Char) → Option Buffer
  | [] => some pp
  | [(_, e)] => pp.addLine e
  | (names, e) :: b :: bs => do
    let pp ← addTo names e pp
    blockLines pp (b :: bs)

def blockCoq (bindings : List (List (List Char) × List Char)) : Option (List Char) := do
  let pp ← blockLines Buffer.empty bindings
  return pp.build

def ifExprCoq (cond thn els : List Char) : Option (List Char) := do
  let pp ← Buffer.empty.addLine ("(if: ".toList ++ cond)
  let pp ← flowBranch pp "then".toList thn []
  let pp ← flowBranch pp "else".toList els ")".toList
  return pp.build

def forLoopCoq (init : List (List Char) × List Char) (cond post body : List Char) :
    Option (List Char) := do
  let pp ← addTo init.1 init.2 Buffer.empty
  let pp ← pp.addLine ("(for: (".toList ++ cond ++ "); (".toList ++ post ++ ") :=".toList)
  let pp ← (pp.indent 2).addLine (body ++ ")".toList)
  return pp.build

def mapIterCoq (keyIdent valueIdent m body : List Char) : Option (List Char) := do
  let pp ← Buffer.empty.addLine ("Data.mapIter ".toList ++ addParens m ++ " (λ: ".toList ++
    binder keyIdent ++ " ".toList ++ binder valueIdent ++ ",".toList)
  let pp ← (pp.indent 2).addLine (body ++ ")".toList)
  return pp.build

def spawnCoq (body : List Char) : Option (List Char) := do
  let pp ← Buffer.empty.block "Fork (".toList (body ++ ")".toList)
  return pp.build

mutual
/-- `Coq()` of an expression or a type. -/
def Expr.coq : Expr → Option (List Char)
  | .gallinaIdent s => some s
  | .identExpr s => some (quote s)
  | .gallinaString s => some (quote s)
  | .callExpr m args => do return callCoq m (← Expr.coqList args)
  | .structFieldAccessExpr st f x throughPointer => do
    let xs ← x.coq
    return if throughPointer then callCoq "struct.loadF".toList [st ++ ".S".toList, quote f, xs]
      else callCoq (st ++ ".get".toList) [quote f, xs]
  | .returnExpr v => v.coq
  | .structLiteral n elts allocation => do structLiteralCoq n (← FieldVal.coqList elts) allocation
  | .boolLiteral b => some (if b then "#true".toList else "#false".toList)
  | .unitLiteral => some "#()".toList
  | .intLiteral v => some ('#' :: decimal v.toNat)
  | .int32Literal v => some ("#(U32 ".toList ++ decimal v.toNat ++ ")".toList)
  | .stringLiteral v => some ("#(str\"".toList ++ v ++ "\")".toList)
  | .binaryExpr x op y => do binaryCoq (← x.coq) op (← y.coq)
  | .notExpr x => do return "~ ".toList ++ addParens (← x.coq)
  | .tupleExpr es => do tupleCoq (← Expr.coqList es)
  | .blockExpr bs => do blockCoq (← Binding.coqList bs)
  | .derefExpr x => do return '!' :: addParens (← x.coq)
  | .refExpr x => do return callCoq "ref".toList [← x.coq]
  | .storeStmt d x => do return (← d.coq) ++ " <- ".toList ++ (← x.coq)
  | .ifExpr c t e => do ifExprCoq (← c.coq) (← t.coq) (← e.coq)
  | .hashTableInsert v => do return "(fun _ => Some ".toList ++ addParens (← v.coq) ++ ")".toList
  | .forLoopExpr init c p body => do
    forLoopCoq (← init.coq) (← c.coq) (← p.coq) (← blockCoq (← Binding.coqList body))
  | .mapIterExpr k v m body => do mapIterCoq k v (← m.coq) (← blockCoq (← Binding.coqList body))
  | .spawnExpr body => do spawnCoq (← blockCoq (← Binding.coqList body))
  | .typeIdent s => some s
  | .structName s => some (s ++ ".T".toList)
  | .mapType v => do return callCoq "mapT".toList [← v.coq]
  | .sliceType v => do return "slice.T ".toList ++ addParens (← v.coq)
  | .tupleType ts => do return "(".toList ++ join (← Expr.coqList ts) " * ".toList ++ ")".toList
  | .ptrType v => do return callCoq "refT".toList [← v.coq]

def Expr.coqList : List Expr → Option (List (List Char))
  | [] => some []
  | e :: es => do return (← e.coq) :: (← Expr.coqList es)

/-- A binding's names with its rendered expression. -/
def Binding.coq : Binding → Option (List (List Char) × List Char)
  | .mk names e => do return (names, ← e.coq)

def Binding.coqList : List Binding → Option (List (List (List Char) × List Char))
  | [] => some []
  | b :: bs => do return (← b.coq) :: (← Binding.coqList bs)

def FieldVal.coqList : List FieldVal → Option (List (List Char × List Char))
  | [] => some []
  | .mk f v :: fs => do return (f, ← v.coq) :: (← FieldVal.coqList fs)
end

/-- A sum of two tuples starts with `(` and ends with `)`, so `addParens` leaves it bare. -/
theorem addParens_tuple_sum :
    ((Expr.binaryExpr (.tupleExpr [.identExpr "a".toList, .identExpr "b".toList]) opPlus
        (.tupleExpr [.identExpr "c".toList, .identExpr "d".toList])).coq.map addParens) =
      some "(\"a\", \"b\") + (\"c\", \"d\")".toList ∧
    isAtom "(\"a\", \"b\") + (\"c\", \"d\")".toList = false := by
  decide

/-- A field's line in `StructDecl.CoqDecl`, before its separator. -/
def FieldDecl.coqField (fd : FieldDecl) : Option (List Char) := do
  return quote fd.name ++ " :: ".toList ++ (← fd.type.coq)

def StructDecl.coqDecl (d : StructDecl) : Option (List Char) := do
  let fields ← d.fields.mapM FieldDecl.coqField
  let pp ← Buffer.empty.addLine ("Module ".toList ++ d.name ++ ".".toList)
  let pp ← (pp.indent 2).addComment d.comment
  let pp ← pp.addLine "Definition S := struct.decl [".toList
  let pp ← (pp.indent 2).addLines (terminated ";".toList fields)
  let pp ← (pp.indent (-2)).addLines ["].".toList, "Definition T: ty := struct.t S.".toList,
    "Definition Ptr: ty := struct.ptrT S.".toList, "Section fields.".toList]
  let pp ← (pp.indent 2).addLines
    ["Context `\x7bext_ty: ext_types\x7d.".toList, "Definition get := struct.get S.".toList]
  let pp ← (pp.indent (-2)).addLine "End fields.".toList
  let pp ← (pp.indent (-2)).addLine ("End ".toList ++ d.name ++ ".".toList)
  return pp.build

def TypeDecl.coqDecl (d : TypeDecl) : Option (List Char) := do
  let pp ← Buffer.empty.addLine ("Definition ".toList ++ d.name ++ ": ty := ".toList ++
    (← d.body.coq) ++ ".".toList)
  return pp.build

def FuncDecl.signature (d : FuncDecl) : List Char :=
  if d.args.isEmpty then "<>".toList else join (d.args.map fun a => binder a.name) " ".toList

/-- `FuncDecl.Type`: the argument types, `unitT` when there are none, then the return type. -/
def FuncDecl.type (d : FuncDecl) : Option (List Char) := do
  let args ← d.args.mapM fun a => a.type.coq
  let ret ← d.returnType.coq
  return join ((if d.args.isEmpty then ["unitT".toList] else args) ++ [ret]) " -> ".toList

/-- The two `Indent(-2)` of the inner function run as it returns, before the typing lines. -/
def FuncDecl.coqDecl (d : FuncDecl) : Option (List Char) := do
  let pp ← Buffer.empty.addComment d.comment
  let pp ← pp.addLine ("Definition ".toList ++ d.name ++ ": val :=".toList)
  let pp ← (pp.indent 2).addLine ("λ: ".toList ++ d.signature ++ ",".toList)
  let pp ← (pp.indent 2).addLine ((← d.body.coq) ++ ".".toList)
  let pp := (pp.indent (-2)).indent (-2)
  let pp ← if d.addTypes then do
      let pp ← pp.addLine ("Theorem ".toList ++ d.name ++ "_t: ⊢ ".toList ++ d.name ++ " : (".toList ++
        (← d.type) ++ ").".toList)
      let pp ← pp.addLine "Proof. typecheck. Qed.".toList
      pp.addLine ("Hint Resolve ".toList ++ d.name ++ "_t : types.".toList)
    else some pp
  return pp.build

/-- `CommentDecl.CoqDecl`. -/
def commentDeclCoq (c : List Char) : Option (List Char) := do
  let pp ← Buffer.empty.addComment c
  return pp.build

/-- `NewComment`: `strings.TrimRight(s, " \t\n")`. -/
def newComment (s : List Char) : List Char :=
  (s.reverse.dropWhile fun c => c = ' ' ∨ c = '\t' ∨ c = '\n').reverse

def ConstDecl.coqDecl (d : ConstDecl) : Option (List Char) := do
  let pp ← Buffer.empty.addComment d.comment
  let pp ← pp.block "Definition ".toList (d.name ++ " : expr := ".toList ++ (← d.val.coq) ++ ".".toList)
  return pp.build

def Decl.coqDecl : Decl → Option (List Char)
  | .funcDecl d => d.coqDecl
  | .structDecl d => d.coqDecl
  | .typeDecl d => d.coqDecl
  | .constDecl d => d.coqDecl
  | .commentDecl c => commentDeclCoq c

def importHeader : List Char :=
  "\nFrom Perennial.go_lang Require Import prelude.\n\n(* disk FFI *)\nFrom Perennial.go_lang Require Import ffi.disk_prelude.\n".toList

/-- `strings.Trim(s, "\n")`. -/
def trimNewlines (s : List Char) : List Char :=
  ((s.dropWhile fun c => c = '\n').reverse.dropWhile fun c => c = '\n').reverse

/-- `fmt.Fprintln`: the text and a newline. -/
def println (s : List Char) : List Char := s ++ ['\n']

def File.autogeneratedNotice (f : File) : List Char := "autogenerated from ".toList ++ f.goPackage

/-- `File.Write`: everything written to the writer. -/
def File.write (f : File) : Option (List Char) := do
  let notice ← commentDeclCoq f.autogeneratedNotice
  let decls ← f.decls.mapM Decl.coqDecl
  return println notice ++ println (trimNewlines importHeader) ++ println [] ++
    join (decls.map println) ['\n']

end Goose.Coq
