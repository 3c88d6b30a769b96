import Goose.Coq.Print

/-! Closed forms of the buffer programs. A rendering is its lines joined by newlines, each line
`lineAt level text` for the text that `Add`, `AddLine` or `Block` was given; at level zero the
line is the text itself. The properties of renderings are proved from these forms and do not
unfold a buffer operation again. -/

namespace Goose.Coq

@[simp] theorem lineAt_zero : lineAt 0 = id := by
  funext t
  by_cases h : t = [] <;> simp [lineAt, h]

theorem addTo_mk (ls : List (List Char)) {k : Int} (hk : 0 ≤ k) (names : List (List Char))
    (e : List Char) :
    addTo names e ⟨ls, k⟩ = (bindingLine names e).map fun t => ⟨ls ++ [lineAt k.toNat t], k⟩ := by
  cases h : bindingLine names e <;> simp [addTo, h, hk]

/-- The texts of a block's lines: the line of every binding but the last, then the last
binding's expression. -/
def blockTexts : List (List (List Char) × List Char) → Option (List (List Char))
  | [] => some []
  | [(_, e)] => some [e]
  | (names, e) :: b :: bs => do return (← bindingLine names e) :: (← blockTexts (b :: bs))

theorem blockLines_mk {k : Int} (hk : 0 ≤ k) : ∀ (ls : List (List Char)) bs,
    blockLines ⟨ls, k⟩ bs = (blockTexts bs).map fun ts => ⟨ls ++ ts.map (lineAt k.toNat), k⟩
  | ls, [] => by simp [blockLines, blockTexts]
  | ls, [(_, e)] => by simp [blockLines, blockTexts, hk]
  | ls, (names, e) :: b :: bs => by
    cases h : bindingLine names e with
    | none => simp [blockLines, blockTexts, addTo_mk _ hk, h]
    | some t =>
      have tail := blockLines_mk hk (ls ++ [lineAt k.toNat t]) (b :: bs)
      cases h' : blockTexts (b :: bs) <;> simp_all [blockLines, blockTexts, addTo_mk _ hk]

theorem blockCoq_eq (bs : List (List (List Char) × List Char)) :
    blockCoq bs = (blockTexts bs).map fun ts => join ts ['\n'] := by
  cases h : blockTexts bs <;> simp [blockCoq, blockLines_mk, h]

theorem structLiteralCoq_eq (n : List Char) (elts : List (List Char × List Char)) (allocation : Bool) :
    structLiteralCoq n elts allocation =
      some (join (((if allocation then "struct.new".toList else "struct.mk".toList) ++ " ".toList ++
        n ++ ".S [".toList) ::
        ((terminated ";".toList (elts.map fun (f, v) => quote f ++ " ::= ".toList ++ v)).map (lineAt 2) ++
          ["]".toList])) ['\n']) := by
  simp [structLiteralCoq]

theorem ifExprCoq_eq (c t e : List Char) :
    ifExprCoq c t e = some (join (("(if: ".toList ++ c) ::
      (branchLines 0 "then".toList t ++ branchLines 0 "else".toList (e ++ ")".toList))) ['\n']) := by
  simp [ifExprCoq]

theorem forLoopCoq_eq (init : List (List Char) × List Char) (c p body : List Char) :
    forLoopCoq init c p body = (bindingLine init.1 init.2).map fun t =>
      join [t, "(for: (".toList ++ c ++ "); (".toList ++ p ++ ") :=".toList,
        lineAt 2 (body ++ ")".toList)] ['\n'] := by
  cases h : bindingLine init.1 init.2 <;> simp [forLoopCoq, addTo_mk, h]

theorem mapIterCoq_eq (k v m body : List Char) :
    mapIterCoq k v m body = some (join ["Data.mapIter ".toList ++ addParens m ++ " (λ: ".toList ++
      binder k ++ " ".toList ++ binder v ++ ",".toList, lineAt 2 (body ++ ")".toList)] ['\n']) := by
  simp [mapIterCoq]

theorem spawnCoq_eq (body : List Char) :
    spawnCoq body = some ("Fork (".toList ++ shiftLines 6 (body ++ ")".toList)) := by
  simp [spawnCoq, lineAt]

theorem tupleCoq_eq (comps : List (List Char)) :
    tupleCoq comps = some ("(".toList ++ shiftLines 1 (join comps ", ".toList) ++ ")".toList) := by
  simp only [tupleCoq]
  rw [show (1 : Int) = ((1 : Nat) : Int) from rfl, indent_of_nat]
  rfl

/-- The lines `AddComment(c)` adds: none for an empty comment. -/
def commentLines (c : List Char) : List (List Char) := if c = [] then [] else [commentText c]

theorem addComment_lines (ls : List (List Char)) {k : Int} (hk : 0 ≤ k) (c : List Char) :
    (⟨ls, k⟩ : Buffer).addComment c = some ⟨ls ++ (commentLines c).map (lineAt k.toNat), k⟩ := by
  by_cases hc : c = [] <;> simp [commentLines, hc, hk]

theorem commentDeclCoq_eq (c : List Char) : commentDeclCoq c = some (join (commentLines c) ['\n']) := by
  simp [commentDeclCoq, addComment_lines, -Buffer.addComment_mk]

/-- The three lines that `AddTypes` adds after a function, for its rendered type. -/
def typingLines (name ty : List Char) : List (List Char) :=
  ["Theorem ".toList ++ name ++ "_t: ⊢ ".toList ++ name ++ " : (".toList ++ ty ++ ").".toList,
    "Proof. typecheck. Qed.".toList, "Hint Resolve ".toList ++ name ++ "_t : types.".toList]

/-- The lines after a function's definition: its typing lines when `AddTypes` is set. -/
def FuncDecl.typing (d : FuncDecl) : Option (List (List Char)) :=
  if d.addTypes then d.type.map (typingLines d.name) else some []

theorem funcDecl_coqDecl_eq (d : FuncDecl) : d.coqDecl = do
    let body ← d.body.coq
    let typing ← d.typing
    return join (commentLines d.comment ++ ["Definition ".toList ++ d.name ++ ": val :=".toList,
      lineAt 2 ("λ: ".toList ++ d.signature ++ ",".toList), lineAt 4 (body ++ ".".toList)] ++ typing)
      ['\n'] := by
  unfold FuncDecl.coqDecl FuncDecl.typing
  cases d.body.coq with
  | none => simp [addComment_lines, -Buffer.addComment_mk]
  | some b =>
    cases d.addTypes
    · simp [addComment_lines, -Buffer.addComment_mk]
    · cases d.type <;> simp [addComment_lines, -Buffer.addComment_mk, typingLines]

theorem structDecl_coqDecl_eq (d : StructDecl) : d.coqDecl =
    (d.fields.mapM FieldDecl.coqField).map
      fun fields => join (("Module ".toList ++ d.name ++ ".".toList) ::
        ((commentLines d.comment).map (lineAt 2) ++ lineAt 2 "Definition S := struct.decl [".toList ::
          ((terminated ";".toList fields).map (lineAt 4) ++
            [lineAt 2 "].".toList, lineAt 2 "Definition T: ty := struct.t S.".toList,
              lineAt 2 "Definition Ptr: ty := struct.ptrT S.".toList, lineAt 2 "Section fields.".toList,
              lineAt 4 "Context `\x7bext_ty: ext_types\x7d.".toList,
              lineAt 4 "Definition get := struct.get S.".toList, lineAt 2 "End fields.".toList,
              "End ".toList ++ d.name ++ ".".toList]))) ['\n'] := by
  rw [StructDecl.coqDecl]
  cases d.fields.mapM FieldDecl.coqField <;> simp [addComment_lines, -Buffer.addComment_mk]

theorem typeDecl_coqDecl_eq (d : TypeDecl) : d.coqDecl =
    d.body.coq.map fun b => "Definition ".toList ++ d.name ++ ": ty := ".toList ++ b ++ ".".toList := by
  cases h : d.body.coq <;> simp [TypeDecl.coqDecl, h]

theorem constDecl_coqDecl_eq (d : ConstDecl) : d.coqDecl = d.val.coq.map fun v =>
    join (commentLines d.comment ++
      ["Definition ".toList ++ shiftLines 11 (d.name ++ " : expr := ".toList ++ v ++ ".".toList)]) ['\n'] := by
  cases h : d.val.coq <;> simp [ConstDecl.coqDecl, h, addComment_lines, -Buffer.addComment_mk, lineAt]

end Goose.Coq
