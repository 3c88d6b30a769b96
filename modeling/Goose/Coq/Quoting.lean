import Goose.Coq.Alphabet

/-! Double quotes in a rendering. The printer writes a double quote only around a name, in
`quote` and `binder`, and around a string value, in `StringLiteral.Coq`; the wildcard `_` is
written `<>`. So when no copied text has a double quote, Coq's string lexing reads the output as
the quoted names and string values of the tree, in the order the tree lists them, each
re-indented by the blocks around it, and every double quote of the output opens or closes one
of them. -/

namespace Goose.Coq

/-- `s` spells the string tokens `ts`: every double quote of `s` opens or closes one of them. -/
inductive QuoteForm : List Char → List (List Char) → Prop
  | plain {o : List Char} : '"' ∉ o → QuoteForm o []
  | quoted {o t r : List Char} {ts : List (List Char)} : '"' ∉ o → '"' ∉ t → QuoteForm r ts →
      QuoteForm (o ++ '"' :: (t ++ '"' :: r)) (t :: ts)

/-- `v` as `shiftLines k` leaves it in front of a closing quote: a final newline of `v` starts
a line, so the indentation follows it. -/
def shiftQuoted (k : Nat) (v : List Char) : List Char := (shiftLines k (v ++ ['"'])).dropLast

/-- The token `t` is the text `v` re-indented by some amount. -/
def Reindented (t v : List Char) : Prop := ∃ k, t = shiftQuoted k v

/-- `s` spells, between pairs of double quotes, the texts `vs`, each re-indented. -/
def Quotes (s : List Char) (vs : List (List Char)) : Prop :=
  ∃ ts, QuoteForm s ts ∧ List.Forall₂ Reindented ts vs

/-- What `quote` and `binder` put between double quotes: the name, or nothing for `_`. -/
def quotedName (s : List Char) : List (List Char) := if s = ['_'] then [] else [s]

mutual
/-- The texts `Coq()` writes between double quotes, in the order it writes them. -/
def Expr.quoted : Expr → List (List Char)
  | .gallinaIdent _ | .boolLiteral _ | .unitLiteral | .intLiteral _ | .int32Literal _
  | .typeIdent _ | .structName _ => []
  | .identExpr s | .gallinaString s => quotedName s
  | .stringLiteral v => [v]
  | .callExpr _ es | .tupleExpr es | .tupleType es => Expr.quotedList es
  | .structFieldAccessExpr _ f x _ => quotedName f ++ x.quoted
  | .returnExpr x | .notExpr x | .derefExpr x | .refExpr x | .hashTableInsert x
  | .mapType x | .sliceType x | .ptrType x => x.quoted
  | .structLiteral _ elts _ => FieldVal.quotedList elts
  | .binaryExpr x _ y | .storeStmt x y => x.quoted ++ y.quoted
  | .ifExpr c t e => c.quoted ++ t.quoted ++ e.quoted
  | .blockExpr bs | .spawnExpr bs => Binding.quotedBlock bs
  | .forLoopExpr (.mk names i) c p body =>
    names.flatMap quotedName ++ i.quoted ++ c.quoted ++ p.quoted ++ Binding.quotedBlock body
  | .mapIterExpr k v m body =>
    m.quoted ++ quotedName k ++ quotedName v ++ Binding.quotedBlock body

def Expr.quotedList : List Expr → List (List Char)
  | [] => []
  | e :: es => e.quoted ++ Expr.quotedList es

/-- A block writes the names of every binding but the last. -/
def Binding.quotedBlock : List Binding → List (List Char)
  | [] => []
  | [.mk _ e] => e.quoted
  | .mk names e :: b :: bs => names.flatMap quotedName ++ e.quoted ++ Binding.quotedBlock (b :: bs)

def FieldVal.quotedList : List FieldVal → List (List Char)
  | [] => []
  | .mk f v :: fs => quotedName f ++ v.quoted ++ FieldVal.quotedList fs
end

/-- The texts a declaration's rendering quotes: argument names and the body of a function, and
its argument and return types when it is typed; field names and types of a struct; the value
of a type or a constant. -/
def Decl.quoted : Decl → List (List Char)
  | .funcDecl d => d.args.flatMap (fun a => quotedName a.name) ++ d.body.quoted ++
      if d.addTypes then d.args.flatMap (fun a => a.type.quoted) ++ d.returnType.quoted else []
  | .structDecl d => d.fields.flatMap fun fd => quotedName fd.name ++ fd.type.quoted
  | .typeDecl d => d.body.quoted
  | .constDecl d => d.val.quoted
  | .commentDecl _ => []

theorem QuoteForm.append {a b : List Char} {ts us : List (List Char)} (ha : QuoteForm a ts)
    (hb : QuoteForm b us) : QuoteForm (a ++ b) (ts ++ us) := by
  induction ha with
  | plain ho =>
    cases hb with
    | plain ho' => exact .plain (List.not_mem_append ho ho')
    | quoted ho' ht hr =>
      rw [List.nil_append, ← List.append_assoc]
      exact .quoted (List.not_mem_append ho ho') ht hr
  | quoted ho ht _ ih =>
    simpa only [List.append_assoc, List.cons_append] using QuoteForm.quoted ho ht ih

theorem count_shiftLines {c : Char} (hc : c ≠ ' ') (k : Nat) : ∀ s : List Char,
    (shiftLines k s).count c = s.count c
  | [] => rfl
  | d :: s => by
    by_cases h : d = '\n' ∧ opensLine s = true
    · rw [shiftLines_cons_shift h]
      simp [List.count_cons, List.count_replicate, Ne.symm hc, count_shiftLines hc k s]
    · rw [shiftLines_cons_keep h]
      simp [List.count_cons, count_shiftLines hc k s]

theorem shiftLines_quote (k : Nat) (v : List Char) :
    shiftLines k (v ++ ['"']) = shiftQuoted k v ++ ['"'] :=
  (List.dropLast_append_getLast? '"' (by simp [getLast?_shiftLines])).symm

theorem shiftLines_append_quote (k : Nat) (v r : List Char) :
    shiftLines k (v ++ '"' :: r) = shiftQuoted k v ++ '"' :: shiftLines k r := by
  rw [show v ++ '"' :: r = (v ++ ['"']) ++ r by simp, shiftLines_append r (by simp),
    shiftLines_quote, List.append_assoc, List.singleton_append]

theorem not_mem_shiftQuoted {k : Nat} {v : List Char} (h : '"' ∉ v) : '"' ∉ shiftQuoted k v := by
  have counts := congrArg (List.count '"') (shiftLines_quote k v)
  rw [count_shiftLines (by decide), List.count_append, List.count_append,
    List.count_eq_zero.mpr h] at counts
  exact List.count_eq_zero.mp (by simpa using counts)

@[simp] theorem shiftQuoted_zero (v : List Char) : shiftQuoted 0 v = v := by simp [shiftQuoted]

theorem shiftQuoted_shiftQuoted (j k : Nat) (v : List Char) :
    shiftQuoted j (shiftQuoted k v) = shiftQuoted (j + k) v := by
  rw [shiftQuoted, ← shiftLines_quote, shiftLines_shiftLines, shiftQuoted]

theorem QuoteForm.shiftLines {s : List Char} {ts : List (List Char)} (h : QuoteForm s ts)
    (k : Nat) : QuoteForm (shiftLines k s) (ts.map (shiftQuoted k)) := by
  induction h with
  | plain ho =>
    exact .plain fun hq => ho (List.count_pos_iff.mp (by
      rw [← count_shiftLines (by decide) k]; exact List.count_pos_iff.mpr hq))
  | quoted ho ht _ ih =>
    rw [shiftLines_append_quote, shiftLines_append_quote]
    exact .quoted (not_mem_shiftQuoted ho) (not_mem_shiftQuoted ht) ih

theorem Reindented.shift {t v : List Char} (h : Reindented t v) (j : Nat) :
    Reindented (shiftQuoted j t) v := by
  obtain ⟨k, rfl⟩ := h
  exact ⟨j + k, shiftQuoted_shiftQuoted j k v⟩

section
variable {s x y p q : List Char} {vs ws : List (List Char)}

theorem Quotes.plain (h : '"' ∉ s) : Quotes s [] := ⟨[], .plain h, .nil⟩

theorem Quotes.append (hx : Quotes x vs) (hy : Quotes y ws) : Quotes (x ++ y) (vs ++ ws) := by
  obtain ⟨ts, hts, hv⟩ := hx
  obtain ⟨us, hus, hw⟩ := hy
  exact ⟨ts ++ us, hts.append hus, List.rel_append hv hw⟩

theorem Quotes.after (hp : '"' ∉ p) (hx : Quotes x vs) : Quotes (p ++ x) vs :=
  (Quotes.plain hp).append hx

theorem Quotes.before (hx : Quotes x vs) (hq : '"' ∉ q) : Quotes (x ++ q) vs := by
  simpa using hx.append (Quotes.plain hq)

theorem Quotes.sep (hx : Quotes x vs) (hp : '"' ∉ p) (hy : Quotes y ws) :
    Quotes (x ++ p ++ y) (vs ++ ws) :=
  (hx.before hp).append hy

theorem Quotes.enclose (hp : '"' ∉ p) (hx : Quotes x vs) (hq : '"' ∉ q) :
    Quotes (p ++ x ++ q) vs :=
  (hx.after hp).before hq

theorem QuoteForm.eq_nil {ts : List (List Char)} (h : QuoteForm [] ts) : ts = [] := by
  generalize hs : ([] : List Char) = s at h
  cases h with
  | plain => rfl
  | quoted => simp at hs

theorem Quotes.eq_nil (h : Quotes [] vs) : vs = [] := by
  obtain ⟨ts, hts, hv⟩ := h
  rw [hts.eq_nil] at hv
  exact List.forall₂_nil_left_iff.mp hv

theorem Quotes.shiftLines (h : Quotes s vs) (k : Nat) : Quotes (shiftLines k s) vs := by
  obtain ⟨ts, hts, hv⟩ := h
  exact ⟨_, hts.shiftLines k, List.forall₂_map_left_iff.mpr (hv.imp fun _ _ r => r.shift k)⟩

theorem Quotes.lineAt (h : Quotes s vs) (k : Nat) : Quotes (lineAt k s) vs := by
  unfold Goose.Coq.lineAt
  split
  · subst s
    rw [h.eq_nil]
    exact Quotes.plain (List.not_mem_nil _)
  · exact (h.shiftLines k).after (by simp [List.mem_replicate])

theorem Quotes.quote (h : '"' ∉ s) : Quotes (quote s) (quotedName s) := by
  unfold Goose.Coq.quote quotedName
  split
  · exact Quotes.plain (by decide)
  · exact ⟨[s], @QuoteForm.quoted [] s [] [] (List.not_mem_nil _) h (.plain (List.not_mem_nil _)),
      .cons ⟨0, (shiftQuoted_zero s).symm⟩ .nil⟩

theorem Quotes.binder (h : '"' ∉ s) : Quotes (binder s) (quotedName s) := by
  unfold Goose.Coq.binder
  split
  · simpa [quotedName, *] using Quotes.plain (by decide : '"' ∉ "<>".toList)
  · exact Quotes.quote h

theorem Quotes.addParens (h : Quotes s vs) : Quotes (addParens s) vs := by
  rcases addParens_cases s with hp | hp <;> rw [hp]
  · exact h
  · exact Quotes.enclose (by decide : '"' ∉ ['(']) h (by decide : '"' ∉ [')'])

theorem Quotes.join_cons {sep : List Char} {xs : List (List Char)} (hsep : '"' ∉ sep)
    (hx : Quotes x vs) (hxs : Quotes (join xs sep) ws) : Quotes (join (x :: xs) sep) (vs ++ ws) := by
  cases xs with
  | nil =>
    rw [hxs.eq_nil, List.append_nil, join_single]
    exact hx
  | cons y ys =>
    rw [join_cons_cons]
    exact (hx.before hsep).append hxs

theorem Quotes.join {sep : List Char} (hsep : '"' ∉ sep) :
    ∀ {xs : List (List Char)} {vss : List (List (List Char))},
      List.Forall₂ Quotes xs vss → Quotes (join xs sep) vss.flatten
  | _, _, .nil => Quotes.plain (List.not_mem_nil _)
  | _, _, .cons h hs => Quotes.join_cons hsep h (Quotes.join hsep hs)

theorem Quotes.terminated {sep : List Char} (hsep : '"' ∉ sep) :
    ∀ {xs : List (List Char)} {vss : List (List (List Char))},
      List.Forall₂ Quotes xs vss → List.Forall₂ Quotes (terminated sep xs) vss
  | _, _, .nil => .nil
  | _, _, .cons h .nil => .cons h .nil
  | _, _, .cons h (.cons h' hs) => .cons (h.before hsep) (Quotes.terminated hsep (.cons h' hs))

theorem Quotes.callCoq {m : List Char} {ss : List (List Char)} {vss : List (List (List Char))}
    (hm : '"' ∉ m) (h : List.Forall₂ Quotes ss vss) : Quotes (callCoq m ss) vss.flatten :=
  @Quotes.join [' '] (by decide) _ ([] :: vss)
    (.cons (Quotes.plain hm) (List.forall₂_map_left_iff.mpr (h.imp fun _ _ q => q.addParens)))

end

theorem AllChars.not_mem {c : Char} {s : List Char} (h : AllChars (· ≠ c) s) : c ∉ s :=
  fun hc => h c hc rfl

theorem quote_not_mem_named {p n q : List Char} (hp : '"' ∉ p) (hn : '"' ∉ n) (hq : '"' ∉ q) :
    '"' ∉ p ++ n ++ q :=
  List.not_mem_append (List.not_mem_append hp hn) hq

theorem Expr.quotedList_eq : ∀ es : List Expr, Expr.quotedList es = (es.map Expr.quoted).flatten
  | [] => rfl
  | e :: es => by
    rw [List.map_cons, List.flatten_cons, ← Expr.quotedList_eq es]
    rfl

theorem FieldVal.quotedList_eq : ∀ fs : List FieldVal,
    FieldVal.quotedList fs = (fs.map fun fv => quotedName fv.field ++ fv.value.quoted).flatten
  | [] => rfl
  | .mk f v :: fs => by
    rw [List.map_cons, List.flatten_cons, ← FieldVal.quotedList_eq fs]
    rfl

theorem Quotes.bindingLine {names : List (List Char)} {e t : List Char} {vs : List (List Char)}
    (hn : ∀ n ∈ names, '"' ∉ n) (he : Quotes e vs) (h : bindingLine names e = some t) :
    Quotes t (names.flatMap quotedName ++ vs) := by
  match names, h with
  | [], h =>
    cases h
    exact he.before (by decide)
  | [n], h =>
    cases h
    rw [List.flatMap_singleton]
    exact ((((Quotes.binder (hn n (.head _))).after (by decide)).sep (by decide) he).before
      (by decide))
  | [n0, n1], h =>
    cases h
    simp only [List.flatMap_cons, List.flatMap_nil, List.append_nil]
    exact (((((Quotes.binder (hn n0 (.head _))).after (by decide)).sep (by decide)
      (Quotes.binder (hn n1 (.tail _ (.head _))))).sep (by decide) he).before (by decide))

/-- A rendered binding and its binding: the same names, and the rendering spells the quoted
texts of the expression. -/
def BindingQuotes (r : List (List Char) × List Char) (b : Binding) : Prop :=
  r.1 = b.names ∧ Quotes r.2 b.expr.quoted

theorem blockTexts_quotes : ∀ {rs : List (List (List Char) × List Char)} {bs : List Binding}
    {ts : List (List Char)}, List.Forall₂ BindingQuotes rs bs → NamesChars (· ≠ '"') bs →
      blockTexts rs = some ts → Quotes (join ts ['\n']) (Binding.quotedBlock bs)
  | [], [], _, .nil, _, h => by
    cases h
    exact Quotes.plain (List.not_mem_nil _)
  | [(_, e)], [.mk _ _], _, .cons hb .nil, _, h => by
    cases h
    rw [join_single]
    exact hb.2
  | (names, e) :: r :: rs, .mk names' e' :: b :: bs, _, .cons hb (.cons hb' hrs), hn, h => by
    simp only [blockTexts, Option.bind_eq_bind, Option.bind_eq_some, Option.pure_def,
      Option.some.injEq] at h
    obtain ⟨t, ht, ts', hts', rfl⟩ := h
    obtain ⟨same, he⟩ := hb
    simp only [Binding.names_mk] at same
    subst same
    exact Quotes.join_cons (by decide)
      (Quotes.bindingLine (fun n h => (hn _ (.head _) n h).not_mem) he ht)
      (blockTexts_quotes (.cons hb' hrs) (fun b' hb'' => hn b' (.tail _ hb'')) hts')

theorem Quotes.blockCoq {rs : List (List (List Char) × List Char)} {bs : List Binding}
    {s : List Char} (hr : List.Forall₂ BindingQuotes rs bs) (hn : NamesChars (· ≠ '"') bs)
    (h : blockCoq rs = some s) : Quotes s (Binding.quotedBlock bs) := by
  rw [blockCoq_eq] at h
  obtain ⟨ts, hts, rfl⟩ := Option.map_eq_some'.mp h
  exact blockTexts_quotes hr hn hts

theorem Quotes.branchLines {pre code : List Char} {vs : List (List Char)} (hpre : '"' ∉ pre)
    (hcode : Quotes code vs) (k : Nat) :
    Quotes (Goose.Coq.join (branchLines k pre code) ['\n']) vs := by
  unfold Goose.Coq.branchLines
  split
  · rw [join_single]
    exact ((Quotes.plain hpre).sep (by decide) hcode).lineAt k
  · exact Quotes.join_cons (by decide) ((Quotes.plain hpre).lineAt k)
      (by simpa using hcode.lineAt (k + 2))

theorem Quotes.branchLines_append {pre code : List Char} {ys vs ws : List (List Char)}
    (hpre : '"' ∉ pre) (hcode : Quotes code vs) (k : Nat)
    (hys : Quotes (Goose.Coq.join ys ['\n']) ws) :
    Quotes (Goose.Coq.join (Goose.Coq.branchLines k pre code ++ ys) ['\n']) (vs ++ ws) := by
  unfold Goose.Coq.branchLines
  split
  · exact Quotes.join_cons (by decide) (((Quotes.plain hpre).sep (by decide) hcode).lineAt k) hys
  · simpa using Quotes.join_cons (by decide) ((Quotes.plain hpre).lineAt k)
      (Quotes.join_cons (by decide) (hcode.lineAt (k + 2)) hys)

theorem Quotes.stringLiteral {v : List Char} (h : '"' ∉ v) :
    Quotes ("#(str\"".toList ++ v ++ "\")".toList) [v] :=
  ⟨[v], @QuoteForm.quoted "#(str".toList v ")".toList [] (by decide) h (.plain (by decide)),
    .cons ⟨0, (shiftQuoted_zero v).symm⟩ .nil⟩

theorem quote_not_mem_decimal (n : Nat) : '"' ∉ decimal n :=
  fun h => absurd ((decimal_spec n).2.1 _ h) (by decide)

theorem Quotes.structLiteralCoq {n s : List Char} {rs : List (List Char × List Char)}
    {alloc : Bool} {vss : List (List (List Char))} (hn : '"' ∉ n)
    (fields : List.Forall₂ (fun r vs => Quotes (Goose.Coq.quote r.1 ++ " ::= ".toList ++ r.2) vs)
      rs vss)
    (h : structLiteralCoq n rs alloc = some s) : Quotes s vss.flatten := by
  rw [structLiteralCoq_eq, Option.some_inj] at h
  subst h
  have header : Quotes ((if alloc then "struct.new".toList else "struct.mk".toList) ++ " ".toList ++
      n ++ ".S [".toList) [] :=
    Quotes.plain (quote_not_mem_named (by cases alloc <;> decide) hn (by decide))
  have lines := List.forall₂_map_left_iff.mpr ((@Quotes.terminated ";".toList (by decide) _ _
    (List.forall₂_map_left_iff.mpr fields)).imp fun _ _ q => q.lineAt 2)
  simpa using @Quotes.join ['\n'] (by decide) _ ([] :: (vss ++ [[]]))
    (.cons header (List.rel_append lines (.cons (Quotes.plain (by decide)) .nil)))

mutual
theorem Expr.coq_quotes : ∀ {e : Expr} {s : List Char},
    e.Every (CharsNode (· ≠ '"')) → e.coq = some s → Quotes s e.quoted
  | .gallinaIdent _, _, h, hs | .typeIdent _, _, h, hs => by
    cases hs
    exact Quotes.plain (AllChars.not_mem h.1)
  | .identExpr _, _, h, hs | .gallinaString _, _, h, hs => by
    cases hs
    exact Quotes.quote (AllChars.not_mem h.1)
  | .stringLiteral _, _, h, hs => by
    cases hs
    exact Quotes.stringLiteral (AllChars.not_mem h.1)
  | .structName _, _, h, hs => by
    cases hs
    exact Quotes.plain (List.not_mem_append (AllChars.not_mem h.1) (by decide))
  | .boolLiteral b, _, _, hs => by
    cases hs
    cases b <;> exact Quotes.plain (by decide)
  | .unitLiteral, _, _, hs => by
    cases hs
    exact Quotes.plain (by decide)
  | .intLiteral _, _, _, hs => by
    cases hs
    exact Quotes.plain (List.not_mem_cons_of_ne_of_not_mem (by decide) (quote_not_mem_decimal _))
  | .int32Literal _, _, _, hs => by
    cases hs
    exact Quotes.plain (List.not_mem_append (List.not_mem_append (by decide)
      (quote_not_mem_decimal _)) (by decide))
  | .callExpr _ args, s, h, hs => by
    obtain ⟨ss, hss, rfl⟩ := bind_pure_eq_some hs
    rw [Expr.quoted, Expr.quotedList_eq]
    exact Quotes.callCoq (AllChars.not_mem h.1) (Expr.coqList_quotes h.2 hss)
  | .structFieldAccessExpr st f x tp, s, h, hs => by
    obtain ⟨sx, hx, rfl⟩ := bind_pure_eq_some hs
    have bx := Expr.coq_quotes h.2 hx
    have field := Quotes.quote (AllChars.not_mem h.1.2)
    have hst := AllChars.not_mem h.1.1
    rw [Expr.quoted]
    cases tp
    · simpa using Quotes.callCoq (List.not_mem_append hst (by decide : '"' ∉ ".get".toList))
        (.cons field (.cons bx .nil))
    · simpa using Quotes.callCoq (by decide : '"' ∉ "struct.loadF".toList)
        (.cons (Quotes.plain (List.not_mem_append hst (by decide : '"' ∉ ".S".toList)))
          (.cons field (.cons bx .nil)))
  | .returnExpr x, s, h, hs => @Expr.coq_quotes x s h.2 hs
  | .structLiteral _ elts _, s, h, hs => by
    obtain ⟨rs, hrs, hs⟩ := Option.bind_eq_some.mp hs
    rw [Expr.quoted, FieldVal.quotedList_eq]
    exact Quotes.structLiteralCoq (AllChars.not_mem h.1.1) (FieldVal.coqList_quotes h.2 h.1.2 hrs) hs
  | .binaryExpr x _ y, s, h, hs => by
    simp only [Expr.coq, Option.bind_eq_bind, Option.bind_eq_some] at hs
    obtain ⟨sx, hx, sy, hy, hs⟩ := hs
    obtain ⟨b, ⟨a, ha⟩, rfl⟩ := binaryCoq_some hs
    have symbol : '"' ∉ " ".toList ++ b ++ " ".toList := by
      simp only [coqBinOp, List.mem_cons, List.mem_singleton, List.not_mem_nil, or_false] at ha
      rcases ha with h | h | h | h | h | h | h | h | h <;> cases h <;> decide
    simpa only [List.append_assoc] using
      (Expr.coq_quotes h.2.1 hx).sep symbol (Expr.coq_quotes h.2.2 hy)
  | .notExpr x, s, h, hs => by
    obtain ⟨sx, hx, rfl⟩ := bind_pure_eq_some hs
    exact (Expr.coq_quotes h.2 hx).addParens.after (by decide)
  | .sliceType x, s, h, hs => by
    obtain ⟨sx, hx, rfl⟩ := bind_pure_eq_some hs
    exact (Expr.coq_quotes h.2 hx).addParens.after (by decide)
  | .derefExpr x, s, h, hs => by
    obtain ⟨sx, hx, rfl⟩ := bind_pure_eq_some hs
    exact (Expr.coq_quotes h.2 hx).addParens.after (by decide : '"' ∉ ['!'])
  | .hashTableInsert x, s, h, hs => by
    obtain ⟨sx, hx, rfl⟩ := bind_pure_eq_some hs
    exact Quotes.enclose (by decide) (Expr.coq_quotes h.2 hx).addParens (by decide)
  | .refExpr x, s, h, hs | .mapType x, s, h, hs | .ptrType x, s, h, hs => by
    obtain ⟨sx, hx, rfl⟩ := bind_pure_eq_some hs
    simpa using Quotes.callCoq (by decide) (.cons (Expr.coq_quotes h.2 hx) .nil)
  | .storeStmt d x, s, h, hs => by
    simp only [Expr.coq, Option.bind_eq_bind, Option.bind_eq_some, Option.pure_def,
      Option.some.injEq] at hs
    obtain ⟨sd, hd, sx, hx, rfl⟩ := hs
    exact (Expr.coq_quotes h.2.1 hd).sep (by decide) (Expr.coq_quotes h.2.2 hx)
  | .tupleExpr es, s, h, hs => by
    simp only [Expr.coq, tupleCoq_eq, Option.bind_eq_bind, Option.bind_eq_some,
      Option.some.injEq] at hs
    obtain ⟨ss, hss, rfl⟩ := hs
    rw [Expr.quoted, Expr.quotedList_eq]
    exact Quotes.enclose (by decide)
      ((Quotes.join (by decide) (Expr.coqList_quotes h.2 hss)).shiftLines 1) (by decide)
  | .tupleType ts, s, h, hs => by
    obtain ⟨ss, hss, rfl⟩ := bind_pure_eq_some hs
    rw [Expr.quoted, Expr.quotedList_eq]
    exact Quotes.enclose (by decide) (Quotes.join (by decide) (Expr.coqList_quotes h.2 hss))
      (by decide)
  | .blockExpr bs, s, h, hs => by
    obtain ⟨rs, hrs, hs⟩ := Option.bind_eq_some.mp hs
    exact Quotes.blockCoq (Binding.coqList_quotes h.2 hrs) h.1 hs
  | .ifExpr c t e, s, h, hs => by
    simp only [Expr.coq, ifExprCoq_eq, Option.bind_eq_bind, Option.bind_eq_some,
      Option.some.injEq] at hs
    obtain ⟨sc, hc, st, ht, se, he, rfl⟩ := hs
    rw [Expr.quoted, List.append_assoc]
    exact Quotes.join_cons (by decide) ((Expr.coq_quotes h.2.1 hc).after (by decide))
      (Quotes.branchLines_append (by decide) (Expr.coq_quotes h.2.2.1 ht) 0
        (Quotes.branchLines (by decide) ((Expr.coq_quotes h.2.2.2 he).before (by decide)) 0))
  | .forLoopExpr (.mk names i) c p body, s, h, hs => by
    simp only [Expr.coq, Binding.coq, forLoopCoq_eq, Option.bind_eq_bind, Option.bind_eq_some,
      Option.pure_def, Option.some.injEq, Option.map_eq_some'] at hs
    obtain ⟨_, ⟨si, hi, rfl⟩, sc, hc, sp, hp, rs, hrs, sb, hb, t, ht, rfl⟩ := hs
    have init := Quotes.bindingLine (fun n hn => AllChars.not_mem (h.1.1 n hn))
      (Expr.coq_quotes h.2.1 hi) ht
    have loop := ((Expr.coq_quotes h.2.2.1 hc).after (by decide : '"' ∉ "(for: (".toList)).sep
      (by decide : '"' ∉ "); (".toList)
      ((Expr.coq_quotes h.2.2.2.1 hp).before (by decide : '"' ∉ ") :=".toList))
    have inner := Quotes.blockCoq (Binding.coqList_quotes h.2.2.2.2 hrs) h.1.2 hb
    simpa only [Expr.quoted, List.flatten_cons, List.flatten_nil, List.append_nil,
      List.append_assoc] using Quotes.join (by decide : '"' ∉ ['\n'])
      (.cons init (.cons loop (.cons ((inner.before (by decide : '"' ∉ ")".toList)).lineAt 2) .nil)))
  | .mapIterExpr _ _ m body, s, h, hs => by
    simp only [Expr.coq, mapIterCoq_eq, Option.bind_eq_bind, Option.bind_eq_some,
      Option.some.injEq] at hs
    obtain ⟨sm, hm, rs, hrs, sb, hb, rfl⟩ := hs
    have head := (((((Expr.coq_quotes h.2.1 hm).addParens.after
      (by decide : '"' ∉ "Data.mapIter ".toList)).sep (by decide : '"' ∉ " (λ: ".toList)
      (Quotes.binder (AllChars.not_mem h.1.1))).sep (by decide : '"' ∉ " ".toList)
      (Quotes.binder (AllChars.not_mem h.1.2.1))).before (by decide : '"' ∉ ",".toList))
    have inner := Quotes.blockCoq (Binding.coqList_quotes h.2.2 hrs) h.1.2.2 hb
    simpa only [Expr.quoted, List.flatten_cons, List.flatten_nil, List.append_nil,
      List.append_assoc] using Quotes.join (by decide : '"' ∉ ['\n'])
      (.cons head (.cons ((inner.before (by decide : '"' ∉ ")".toList)).lineAt 2) .nil))
  | .spawnExpr body, s, h, hs => by
    simp only [Expr.coq, spawnCoq_eq, Option.bind_eq_bind, Option.bind_eq_some,
      Option.some.injEq] at hs
    obtain ⟨rs, hrs, sb, hb, rfl⟩ := hs
    have inner := Quotes.blockCoq (Binding.coqList_quotes h.2 hrs) h.1 hb
    exact ((inner.before (by decide)).shiftLines 6).after (by decide)

theorem Expr.coqList_quotes : ∀ {es : List Expr} {ss : List (List Char)},
    Expr.EveryList (CharsNode (· ≠ '"')) es → Expr.coqList es = some ss →
      List.Forall₂ Quotes ss (es.map Expr.quoted)
  | [], _, _, hs => by
    cases hs
    exact .nil
  | e :: es, ss, h, hs => by
    simp only [Expr.coqList, Option.bind_eq_bind, Option.bind_eq_some, Option.pure_def,
      Option.some.injEq] at hs
    obtain ⟨s, he, ss', hes, rfl⟩ := hs
    exact .cons (Expr.coq_quotes h.1 he) (Expr.coqList_quotes h.2 hes)

theorem Binding.coqList_quotes : ∀ {bs : List Binding} {rs : List (List (List Char) × List Char)},
    Binding.EveryList (CharsNode (· ≠ '"')) bs → Binding.coqList bs = some rs →
      List.Forall₂ BindingQuotes rs bs
  | [], _, _, hs => by
    cases hs
    exact .nil
  | .mk names e :: bs, rs, h, hs => by
    simp only [Binding.coqList, Binding.coq, Option.bind_eq_bind, Option.bind_eq_some,
      Option.pure_def, Option.some.injEq] at hs
    obtain ⟨_, ⟨s, he, rfl⟩, rs', hbs, rfl⟩ := hs
    exact .cons ⟨rfl, Expr.coq_quotes h.1 he⟩ (Binding.coqList_quotes h.2 hbs)

theorem FieldVal.coqList_quotes : ∀ {fs : List FieldVal} {rs : List (List Char × List Char)},
    FieldVal.EveryList (CharsNode (· ≠ '"')) fs →
      (∀ fv ∈ fs, AllChars (· ≠ '"') fv.field) → FieldVal.coqList fs = some rs →
        List.Forall₂ (fun r vs => Quotes (Goose.Coq.quote r.1 ++ " ::= ".toList ++ r.2) vs) rs
          (fs.map fun fv => quotedName fv.field ++ fv.value.quoted)
  | [], _, _, _, hs => by
    cases hs
    exact .nil
  | .mk f v :: fs, rs, h, hn, hs => by
    simp only [FieldVal.coqList, Option.bind_eq_bind, Option.bind_eq_some, Option.pure_def,
      Option.some.injEq] at hs
    obtain ⟨s, hv, rs', hfs, rfl⟩ := hs
    exact .cons ((Quotes.quote (AllChars.not_mem (hn _ (.head _)))).sep (by decide)
      (Expr.coq_quotes h.1 hv)) (FieldVal.coqList_quotes h.2 (fun b hb => hn b (.tail _ hb)) hfs)
end

end Goose.Coq
