import Goose.Coq.Trailing

/-! What printing forgets. `ReturnExpr.Coq` is the value's `Coq()`, a block writes its last
binding as the bare expression, and a block's lines are its bindings' lines joined by newlines
at level zero. So a return is invisible, the names of a block's last binding are lost, a block of
one binding prints as its expression, and a block that is the expression of an anonymous
binding, or of a block's last binding, prints as if its bindings stood in the enclosing block.
`Expr.normalize` makes these four rewritings everywhere in a tree, and every tree prints exactly
as its normal form. The normal forms are the trees `NormalNode` holds at every node of, and
`Expr.normalize` leaves them alone. -/

namespace Goose.Coq

/-- `bs` with the names of its last binding dropped. -/
def anonymizeLast : List Binding → List Binding
  | [] => []
  | .mk names e :: bs => match bs with
    | [] => [.mk [] e]
    | _ :: _ => .mk names e :: anonymizeLast bs

/-- What a block's last binding stands for: the bindings of a non-empty block it holds, or its
expression without names. -/
def lastBindings : Expr → List Binding
  | .blockExpr bs@(_ :: _) => bs
  | e => [.mk [] e]

/-- What a binding that is not a block's last stands for: an anonymous one holding a non-empty
block stands for that block's bindings, the last of them anonymous. -/
def innerBindings (names : List (List Char)) : Expr → List Binding
  | .blockExpr bs@(_ :: _) => if names = [] then anonymizeLast bs else [.mk names (.blockExpr bs)]
  | e => [.mk names e]

/-- A block of one binding is that binding's expression. -/
def unwrapBlock : List Binding → Expr
  | [.mk _ e] => e
  | bs => .blockExpr bs

mutual
/-- The normal form of a tree: returns erased, blocks unwrapped and spliced, the names of every
block's last binding dropped. -/
def Expr.normalize : Expr → Expr
  | .gallinaIdent s => .gallinaIdent s
  | .identExpr s => .identExpr s
  | .gallinaString s => .gallinaString s
  | .callExpr m args => .callExpr m (Expr.normalizeList args)
  | .structFieldAccessExpr st f x p => .structFieldAccessExpr st f x.normalize p
  | .returnExpr v => v.normalize
  | .structLiteral n elts allocation => .structLiteral n (FieldVal.normalizeList elts) allocation
  | .boolLiteral b => .boolLiteral b
  | .unitLiteral => .unitLiteral
  | .intLiteral v => .intLiteral v
  | .int32Literal v => .int32Literal v
  | .stringLiteral v => .stringLiteral v
  | .binaryExpr x op y => .binaryExpr x.normalize op y.normalize
  | .notExpr x => .notExpr x.normalize
  | .tupleExpr es => .tupleExpr (Expr.normalizeList es)
  | .blockExpr bs => unwrapBlock (Binding.normalizeList bs)
  | .derefExpr x => .derefExpr x.normalize
  | .refExpr x => .refExpr x.normalize
  | .storeStmt d x => .storeStmt d.normalize x.normalize
  | .ifExpr c t e => .ifExpr c.normalize t.normalize e.normalize
  | .hashTableInsert v => .hashTableInsert v.normalize
  | .forLoopExpr (.mk names e) c p body =>
    .forLoopExpr (.mk names e.normalize) c.normalize p.normalize (Binding.normalizeList body)
  | .mapIterExpr k v m body => .mapIterExpr k v m.normalize (Binding.normalizeList body)
  | .spawnExpr body => .spawnExpr (Binding.normalizeList body)
  | .typeIdent s => .typeIdent s
  | .structName s => .structName s
  | .mapType v => .mapType v.normalize
  | .sliceType v => .sliceType v.normalize
  | .tupleType ts => .tupleType (Expr.normalizeList ts)
  | .ptrType v => .ptrType v.normalize

def Expr.normalizeList : List Expr → List Expr
  | [] => []
  | e :: es => e.normalize :: Expr.normalizeList es

def Binding.normalizeList : List Binding → List Binding
  | [] => []
  | .mk names e :: bs => match bs with
    | [] => lastBindings e.normalize
    | _ :: _ => innerBindings names e.normalize ++ Binding.normalizeList bs

def FieldVal.normalizeList : List FieldVal → List FieldVal
  | [] => []
  | .mk f v :: fs => .mk f v.normalize :: FieldVal.normalizeList fs
end

/-- Normalizing a function's body and a constant's value; the other declarations hold no
expression that could be normalized. -/
def FuncDecl.normalize (d : FuncDecl) : FuncDecl := { d with body := d.body.normalize }

def ConstDecl.normalize (d : ConstDecl) : ConstDecl := { d with val := d.val.normalize }

def Decl.normalize : Decl → Decl
  | .funcDecl d => .funcDecl d.normalize
  | .constDecl d => .constDecl d.normalize
  | d => d

def File.normalize (f : File) : File := { f with decls := f.decls.map Decl.normalize }

/-- A block with at least one binding, the blocks `Expr.normalize` splices. -/
def Expr.isNonEmptyBlock : Expr → Bool
  | .blockExpr (_ :: _) => true
  | _ => false

/-- Bindings as `Binding.normalizeList` leaves them: the last has no names, and no binding
without names holds a non-empty block. -/
def NormalBindings (bs : List Binding) : Prop :=
  (∀ b ∈ bs.getLast?, b.names = []) ∧
    ∀ b ∈ bs, b.names = [] → b.expr.isNonEmptyBlock = false

/-- What `Expr.normalize` leaves at a node: no return, no block of one binding, and the bindings
of blocks and loop bodies as `NormalBindings` says. -/
def NormalNode : Expr → Prop
  | .returnExpr _ => False
  | .blockExpr bs => bs.length ≠ 1 ∧ NormalBindings bs
  | .forLoopExpr _ _ _ body | .mapIterExpr _ _ _ body | .spawnExpr body => NormalBindings body
  | _ => True

/-- The text `BlockExpr.Coq` writes for `bs`. -/
def blockText (bs : List Binding) : Option (List Char) := (Binding.coqList bs).bind blockCoq

/-- One text above another: the first, a newline, then the second. -/
def above (a b : Option (List Char)) : Option (List Char) := do
  let l ← a
  let r ← b
  return l ++ '\n' :: r

/-- The line `Binding.AddTo` writes for a binding that is not its block's last. -/
def Binding.line (b : Binding) : Option (List Char) := b.coq.bind fun p => bindingLine p.1 p.2

/-- The text of bindings that are none of them a block's last, one line each. -/
def innerText : List Binding → Option (List Char)
  | [] => some []
  | b :: bs => match bs with
    | [] => b.line
    | _ :: _ => above b.line (innerText bs)

theorem above_assoc (a b c : Option (List Char)) : above (above a b) c = above a (above b c) := by
  cases a <;> cases b <;> cases c <;> simp [above]

theorem above_map_append (a b : Option (List Char)) (t : List Char) :
    above a (b.map (· ++ t)) = (above a b).map (· ++ t) := by
  cases a <;> cases b <;> simp [above]

theorem Binding.line_mk (names : List (List Char)) (e : Expr) :
    (Binding.mk names e).line = e.coq.bind (bindingLine names) := by
  cases h : e.coq <;> simp [Binding.line, Binding.coq, h]

theorem blockCoq_cons {p : List (List Char) × List Char}
    {ps : List (List (List Char) × List Char)} (h : ps ≠ []) :
    blockCoq (p :: ps) = above (bindingLine p.1 p.2) (blockCoq ps) := by
  obtain ⟨q, qs, rfl⟩ := List.exists_cons_of_ne_nil h
  rw [blockCoq_eq, blockCoq_eq]
  cases hl : bindingLine p.1 p.2 with
  | none => simp [blockTexts, above, hl]
  | some l =>
    cases ht : blockTexts (q :: qs) with
    | none => simp [blockTexts, above, hl, ht]
    | some ts =>
      obtain ⟨t, ts, rfl⟩ :=
        List.exists_cons_of_ne_nil (blockTexts_ne_nil ht (List.cons_ne_nil q qs))
      simp [blockTexts, above, hl, ht]

theorem blockText_single (names : List (List Char)) (e : Expr) :
    blockText [.mk names e] = e.coq := by
  cases h : e.coq <;> simp [blockText, Binding.coqList, Binding.coq, h, blockCoq_eq, blockTexts]

theorem blockText_cons (b : Binding) {bs : List Binding} (h : bs ≠ []) :
    blockText (b :: bs) = above b.line (blockText bs) := by
  simp only [blockText, Binding.line, Binding.coqList]
  cases hb : b.coq with
  | none => rfl
  | some p =>
    cases hbs : Binding.coqList bs with
    | none => simp [above]
    | some ps => simp [blockCoq_cons (Binding.coqList_ne_nil hbs h)]

theorem innerText_cons (b : Binding) {bs : List Binding} (h : bs ≠ []) :
    innerText (b :: bs) = above b.line (innerText bs) := by
  obtain ⟨b', bs, rfl⟩ := List.exists_cons_of_ne_nil h
  rw [innerText]

theorem blockText_append {xs ys : List Binding} (hx : xs ≠ []) (hy : ys ≠ []) :
    blockText (xs ++ ys) = above (innerText xs) (blockText ys) := by
  induction xs with
  | nil => exact absurd rfl hx
  | cons b bs ih =>
    rw [List.cons_append, blockText_cons b (by simp [hy])]
    cases bs with
    | nil => rfl
    | cons b' bs =>
      rw [ih (List.cons_ne_nil b' bs), innerText_cons b (List.cons_ne_nil b' bs), above_assoc]

theorem bind_bindingLine_nil (t : Option (List Char)) :
    t.bind (bindingLine []) = t.map (· ++ ";;".toList) := by
  cases t <;> rfl

theorem coqList_bind_blockCoq {α : Type} (bs : List Binding) (k : List Char → Option α) :
    (Binding.coqList bs >>= fun ps => blockCoq ps >>= k) = (blockText bs).bind k := by
  rw [blockText]
  cases Binding.coqList bs <;> rfl

theorem anonymizeLast_ne_nil : ∀ {bs : List Binding}, bs ≠ [] → anonymizeLast bs ≠ []
  | [.mk _ _], _ | .mk _ _ :: _ :: _, _ => by simp [anonymizeLast]

theorem lastBindings_ne_nil (e : Expr) : lastBindings e ≠ [] := by
  unfold lastBindings
  split <;> simp

theorem innerBindings_ne_nil (names : List (List Char)) (e : Expr) :
    innerBindings names e ≠ [] := by
  unfold innerBindings
  split
  · split
    · exact anonymizeLast_ne_nil (List.cons_ne_nil _ _)
    · simp
  · simp

theorem Binding.normalizeList_ne_nil :
    ∀ {bs : List Binding}, bs ≠ [] → Binding.normalizeList bs ≠ []
  | [.mk _ e], _ => by rw [Binding.normalizeList]; exact lastBindings_ne_nil _
  | .mk _ e :: b :: bs, _ => by rw [Binding.normalizeList]; simp [innerBindings_ne_nil]

theorem innerText_anonymizeLast : ∀ {bs : List Binding}, bs ≠ [] →
    innerText (anonymizeLast bs) = (blockText bs).map (· ++ ";;".toList)
  | [.mk _ e], _ => by
    rw [anonymizeLast, innerText, blockText_single, Binding.line_mk, bind_bindingLine_nil]
  | .mk names e :: b :: bs, _ => by
    have ne := List.cons_ne_nil b bs
    rw [anonymizeLast, innerText_cons _ (anonymizeLast_ne_nil ne), innerText_anonymizeLast ne,
      blockText_cons _ ne, above_map_append]

theorem innerText_innerBindings (names : List (List Char)) (e : Expr) :
    innerText (innerBindings names e) = (Binding.mk names e).line := by
  unfold innerBindings
  split
  · split
    · subst names
      rw [innerText_anonymizeLast (List.cons_ne_nil _ _), Binding.line_mk, bind_bindingLine_nil]
      rfl
    · rw [innerText]
  · rw [innerText]

theorem blockText_lastBindings (e : Expr) : blockText (lastBindings e) = e.coq := by
  unfold lastBindings
  split
  · rfl
  · exact blockText_single [] _

theorem unwrapBlock_coq (bs : List Binding) : (unwrapBlock bs).coq = blockText bs := by
  unfold unwrapBlock
  split
  · exact (blockText_single _ _).symm
  · rfl

mutual
theorem Expr.coq_normalize : ∀ e : Expr, e.normalize.coq = e.coq
  | .gallinaIdent _ | .identExpr _ | .gallinaString _ | .boolLiteral _ | .unitLiteral
  | .intLiteral _ | .int32Literal _ | .stringLiteral _ | .typeIdent _ | .structName _ => rfl
  | .callExpr _ es | .tupleExpr es | .tupleType es => by
    simp only [Expr.normalize, Expr.coq, Expr.coqList_normalize es]
  | .structFieldAccessExpr _ _ x _ | .notExpr x | .derefExpr x | .refExpr x | .hashTableInsert x
  | .mapType x | .sliceType x | .ptrType x => by
    simp only [Expr.normalize, Expr.coq, Expr.coq_normalize x]
  | .returnExpr v => Expr.coq_normalize v
  | .structLiteral _ elts _ => by
    simp only [Expr.normalize, Expr.coq, FieldVal.coqList_normalize elts]
  | .binaryExpr x _ y | .storeStmt x y => by
    simp only [Expr.normalize, Expr.coq, Expr.coq_normalize x, Expr.coq_normalize y]
  | .ifExpr c t e => by
    simp only [Expr.normalize, Expr.coq, Expr.coq_normalize c, Expr.coq_normalize t,
      Expr.coq_normalize e]
  | .blockExpr bs => by
    rw [Expr.normalize, unwrapBlock_coq, Binding.blockText_normalize]
    rfl
  | .forLoopExpr (.mk _ i) c p body => by
    simp only [Expr.normalize, Expr.coq, Binding.coq, coqList_bind_blockCoq,
      Binding.blockText_normalize body, Expr.coq_normalize i, Expr.coq_normalize c,
      Expr.coq_normalize p]
  | .mapIterExpr _ _ m body => by
    simp only [Expr.normalize, Expr.coq, coqList_bind_blockCoq, Binding.blockText_normalize body,
      Expr.coq_normalize m]
  | .spawnExpr body => by
    simp only [Expr.normalize, Expr.coq, coqList_bind_blockCoq, Binding.blockText_normalize body]

theorem Expr.coqList_normalize :
    ∀ es : List Expr, Expr.coqList (Expr.normalizeList es) = Expr.coqList es
  | [] => rfl
  | e :: es => by
    simp only [Expr.normalizeList, Expr.coqList, Expr.coq_normalize e, Expr.coqList_normalize es]

theorem Binding.blockText_normalize :
    ∀ bs : List Binding, blockText (Binding.normalizeList bs) = blockText bs
  | [] => rfl
  | [.mk _ e] => by
    rw [Binding.normalizeList, blockText_lastBindings, Expr.coq_normalize e, blockText_single]
  | .mk names e :: b :: bs => by
    have ne := List.cons_ne_nil b bs
    rw [Binding.normalizeList, blockText_append (innerBindings_ne_nil _ _)
      (Binding.normalizeList_ne_nil ne), innerText_innerBindings,
      Binding.blockText_normalize (b :: bs), blockText_cons _ ne, Binding.line_mk,
      Binding.line_mk, Expr.coq_normalize e]

theorem FieldVal.coqList_normalize :
    ∀ fs : List FieldVal, FieldVal.coqList (FieldVal.normalizeList fs) = FieldVal.coqList fs
  | [] => rfl
  | .mk _ v :: fs => by
    simp only [FieldVal.normalizeList, FieldVal.coqList, Expr.coq_normalize v,
      FieldVal.coqList_normalize fs]
end

theorem Expr.nonEmptyBlock_cases (e : Expr) :
    (∃ b bs, e = .blockExpr (b :: bs)) ∨ e.isNonEmptyBlock = false := by
  cases e with
  | blockExpr bs =>
    cases bs with
    | nil => exact .inr rfl
    | cons b bs => exact .inl ⟨b, bs, rfl⟩
  | _ => exact .inr rfl

theorem lastBindings_of_not {e : Expr} (h : e.isNonEmptyBlock = false) :
    lastBindings e = [.mk [] e] := by
  unfold lastBindings
  split
  · cases h
  · rfl

theorem innerBindings_of_not (names : List (List Char)) {e : Expr}
    (h : e.isNonEmptyBlock = false) : innerBindings names e = [.mk names e] := by
  unfold innerBindings
  split
  · cases h
  · rfl

theorem innerBindings_of_named {names : List (List Char)} {e : Expr}
    (h : names = [] → e.isNonEmptyBlock = false) : innerBindings names e = [.mk names e] := by
  rcases e.nonEmptyBlock_cases with ⟨b, bs, rfl⟩ | hb
  · rw [innerBindings, if_neg fun hn => nomatch h hn]
  · exact innerBindings_of_not names hb

theorem anonymizeLast_of_anonymous :
    ∀ {bs : List Binding}, (∀ b ∈ bs.getLast?, b.names = []) → anonymizeLast bs = bs
  | [], _ => rfl
  | [.mk names e], h => by
    have anonymous : names = [] := h _ rfl
    rw [anonymizeLast, anonymous]
  | .mk names e :: b :: bs, h => by
    rw [anonymizeLast, anonymizeLast_of_anonymous (by simpa using h)]

theorem NormalBindings.append {xs ys : List Binding}
    (hxs : ∀ b ∈ xs, b.names = [] → b.expr.isNonEmptyBlock = false) (hys : NormalBindings ys)
    (hy : ys ≠ []) : NormalBindings (xs ++ ys) :=
  ⟨by rw [List.getLast?_append_of_ne_nil xs hy]; exact hys.1,
    List.forall_mem_append.mpr ⟨hxs, hys.2⟩⟩

theorem NormalBindings.tail {x b : Binding} {bs : List Binding}
    (h : NormalBindings (x :: b :: bs)) : NormalBindings (b :: bs) :=
  ⟨by simpa using h.1, fun c hc => h.2 c (List.mem_cons_of_mem x hc)⟩

theorem lastBindings_normal {e : Expr} (h : e.Every NormalNode) :
    Binding.EveryList NormalNode (lastBindings e) ∧ NormalBindings (lastBindings e) := by
  rcases e.nonEmptyBlock_cases with ⟨b, bs, rfl⟩ | hb
  · exact ⟨h.2, h.1.2⟩
  · rw [lastBindings_of_not hb]
    exact ⟨⟨h, trivial⟩, by simp [NormalBindings, hb]⟩

theorem innerBindings_normal (names : List (List Char)) {e : Expr} (h : e.Every NormalNode) :
    Binding.EveryList NormalNode (innerBindings names e) ∧
      ∀ b ∈ innerBindings names e, b.names = [] → b.expr.isNonEmptyBlock = false := by
  rcases e.nonEmptyBlock_cases with ⟨b, bs, rfl⟩ | hb
  · by_cases hn : names = []
    · rw [innerBindings, if_pos hn, anonymizeLast_of_anonymous h.1.2.1]
      exact ⟨h.2, h.1.2.2⟩
    · rw [innerBindings, if_neg hn]
      exact ⟨⟨h, trivial⟩, by simp [hn]⟩
  · rw [innerBindings_of_not names hb]
    exact ⟨⟨h, trivial⟩, by simp [hb]⟩

theorem unwrapBlock_normal {bs : List Binding}
    (h : Binding.EveryList NormalNode bs ∧ NormalBindings bs) :
    (unwrapBlock bs).Every NormalNode := by
  unfold unwrapBlock
  split
  · exact h.1.1
  · rename_i single
    refine ⟨⟨fun one => ?_, h.2⟩, h.1⟩
    obtain ⟨⟨names, e⟩, rfl⟩ := List.length_eq_one.mp one
    exact single names e rfl

theorem unwrapBlock_of_length {bs : List Binding} (h : bs.length ≠ 1) :
    unwrapBlock bs = .blockExpr bs := by
  unfold unwrapBlock
  split
  · exact absurd rfl h
  · rfl

mutual
theorem Expr.normalize_normal : ∀ e : Expr, e.normalize.Every NormalNode
  | .gallinaIdent _ | .identExpr _ | .gallinaString _ | .boolLiteral _ | .unitLiteral
  | .intLiteral _ | .int32Literal _ | .stringLiteral _ | .typeIdent _ | .structName _ =>
    ⟨trivial, trivial⟩
  | .callExpr _ es | .tupleExpr es | .tupleType es => ⟨trivial, Expr.normalizeList_normal es⟩
  | .structFieldAccessExpr _ _ x _ | .notExpr x | .derefExpr x | .refExpr x | .hashTableInsert x
  | .mapType x | .sliceType x | .ptrType x => ⟨trivial, Expr.normalize_normal x⟩
  | .returnExpr v => Expr.normalize_normal v
  | .structLiteral _ elts _ => ⟨trivial, FieldVal.normalizeList_normal elts⟩
  | .binaryExpr x _ y | .storeStmt x y =>
    ⟨trivial, Expr.normalize_normal x, Expr.normalize_normal y⟩
  | .ifExpr c t e =>
    ⟨trivial, Expr.normalize_normal c, Expr.normalize_normal t, Expr.normalize_normal e⟩
  | .blockExpr bs => unwrapBlock_normal (Binding.normalizeList_normal bs)
  | .forLoopExpr (.mk _ i) c p body =>
    have body' := Binding.normalizeList_normal body
    ⟨body'.2, Expr.normalize_normal i, Expr.normalize_normal c, Expr.normalize_normal p,
      body'.1⟩
  | .mapIterExpr _ _ m body =>
    have body' := Binding.normalizeList_normal body
    ⟨body'.2, Expr.normalize_normal m, body'.1⟩
  | .spawnExpr body =>
    have body' := Binding.normalizeList_normal body
    ⟨body'.2, body'.1⟩

theorem Expr.normalizeList_normal :
    ∀ es : List Expr, Expr.EveryList NormalNode (Expr.normalizeList es)
  | [] => trivial
  | e :: es => ⟨Expr.normalize_normal e, Expr.normalizeList_normal es⟩

theorem Binding.normalizeList_normal : ∀ bs : List Binding,
    Binding.EveryList NormalNode (Binding.normalizeList bs) ∧
      NormalBindings (Binding.normalizeList bs)
  | [] => ⟨trivial, by simp [Binding.normalizeList, NormalBindings]⟩
  | [.mk _ e] => lastBindings_normal (Expr.normalize_normal e)
  | .mk names e :: b :: bs => by
    have inner := innerBindings_normal names (Expr.normalize_normal e)
    have rest := Binding.normalizeList_normal (b :: bs)
    rw [Binding.normalizeList]
    refine ⟨?_, NormalBindings.append inner.2 rest.2
      (Binding.normalizeList_ne_nil (List.cons_ne_nil b bs))⟩
    simp only [Binding.everyList_iff, List.forall_mem_append] at inner rest ⊢
    exact ⟨inner.1, rest.1⟩

theorem FieldVal.normalizeList_normal :
    ∀ fs : List FieldVal, FieldVal.EveryList NormalNode (FieldVal.normalizeList fs)
  | [] => trivial
  | .mk _ v :: fs => ⟨Expr.normalize_normal v, FieldVal.normalizeList_normal fs⟩
end

mutual
theorem Expr.normalize_of_normal : ∀ {e : Expr}, e.Every NormalNode → e.normalize = e
  | .gallinaIdent _, _ | .identExpr _, _ | .gallinaString _, _ | .boolLiteral _, _
  | .unitLiteral, _ | .intLiteral _, _ | .int32Literal _, _ | .stringLiteral _, _
  | .typeIdent _, _ | .structName _, _ => rfl
  | .callExpr _ _, h | .tupleExpr _, h | .tupleType _, h => by
    rw [Expr.normalize, Expr.normalizeList_of_normal h.2]
  | .structFieldAccessExpr _ _ _ _, h | .notExpr _, h | .derefExpr _, h | .refExpr _, h
  | .hashTableInsert _, h | .mapType _, h | .sliceType _, h | .ptrType _, h => by
    rw [Expr.normalize, Expr.normalize_of_normal h.2]
  | .returnExpr _, h => h.1.elim
  | .structLiteral _ _ _, h => by rw [Expr.normalize, FieldVal.normalizeList_of_normal h.2]
  | .binaryExpr _ _ _, h | .storeStmt _ _, h => by
    rw [Expr.normalize, Expr.normalize_of_normal h.2.1, Expr.normalize_of_normal h.2.2]
  | .ifExpr _ _ _, h => by
    rw [Expr.normalize, Expr.normalize_of_normal h.2.1, Expr.normalize_of_normal h.2.2.1,
      Expr.normalize_of_normal h.2.2.2]
  | .blockExpr _, h => by
    rw [Expr.normalize, Binding.normalizeList_of_normal h.2 h.1.2, unwrapBlock_of_length h.1.1]
  | .forLoopExpr (.mk _ _) _ _ _, h => by
    rw [Expr.normalize, Expr.normalize_of_normal h.2.1, Expr.normalize_of_normal h.2.2.1,
      Expr.normalize_of_normal h.2.2.2.1, Binding.normalizeList_of_normal h.2.2.2.2 h.1]
  | .mapIterExpr _ _ _ _, h => by
    rw [Expr.normalize, Expr.normalize_of_normal h.2.1, Binding.normalizeList_of_normal h.2.2 h.1]
  | .spawnExpr _, h => by rw [Expr.normalize, Binding.normalizeList_of_normal h.2 h.1]

theorem Expr.normalizeList_of_normal :
    ∀ {es : List Expr}, Expr.EveryList NormalNode es → Expr.normalizeList es = es
  | [], _ => rfl
  | _ :: _, h => by
    rw [Expr.normalizeList, Expr.normalize_of_normal h.1, Expr.normalizeList_of_normal h.2]

theorem Binding.normalizeList_of_normal : ∀ {bs : List Binding},
    Binding.EveryList NormalNode bs → NormalBindings bs → Binding.normalizeList bs = bs
  | [], _, _ => rfl
  | [.mk names e], h, hn => by
    have anonymous : names = [] := hn.1 _ rfl
    have last : e.isNonEmptyBlock = false := hn.2 _ (List.mem_singleton_self _) anonymous
    rw [Binding.normalizeList, Expr.normalize_of_normal h.1, lastBindings_of_not last, anonymous]
  | .mk names e :: b :: bs, h, hn => by
    have named : names = [] → e.isNonEmptyBlock = false := hn.2 _ (List.mem_cons_self _ _)
    rw [Binding.normalizeList, Expr.normalize_of_normal h.1, innerBindings_of_named named,
      Binding.normalizeList_of_normal h.2 hn.tail, List.singleton_append]

theorem FieldVal.normalizeList_of_normal :
    ∀ {fs : List FieldVal}, FieldVal.EveryList NormalNode fs → FieldVal.normalizeList fs = fs
  | [], _ => rfl
  | .mk _ _ :: _, h => by
    rw [FieldVal.normalizeList, Expr.normalize_of_normal h.1, FieldVal.normalizeList_of_normal h.2]
end

/-- An anonymous nested block is spliced into its enclosing block, the return is erased and the
last binding loses its name. -/
example :
    (Expr.blockExpr [.mk [] (.blockExpr [.mk ["x".toList] (.identExpr "a".toList),
      .mk ["y".toList] (.returnExpr (.identExpr "x".toList))]),
      .mk ["z".toList] .unitLiteral]).normalize =
      .blockExpr [.mk ["x".toList] (.identExpr "a".toList), .mk [] (.identExpr "x".toList),
        .mk [] .unitLiteral] := rfl

end Goose.Coq
