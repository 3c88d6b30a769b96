import Goose.Coq.Reparse

/-! Bracket nesting of renderings. `bracketScan` reads a text with a stack of open `(` and `[`;
a text is nested when it leaves the empty stack empty, and balanced when it leaves every stack
as it was. Spaces and newlines are neither, so re-indentation and the layouts of
`Goose.Coq.Layout` keep both; the printer's own delimiters are opened and closed within the
rendering that opens them. -/

namespace Goose.Coq

def closes (o c : Char) : Bool := (o == '(' && c == ')') || (o == '[' && c == ']')

/-- The brackets still open after reading `s` with `stack` open, innermost first; `none` once a
closer does not close the innermost open bracket. -/
def bracketScan : List Char → List Char → Option (List Char)
  | stack, [] => some stack
  | stack, c :: s =>
    if c = '(' ∨ c = '[' then bracketScan (c :: stack) s
    else if c = ')' ∨ c = ']' then
      match stack with
      | o :: stack => if closes o c then bracketScan stack s else none
      | [] => none
    else bracketScan stack s

/-- `(` `)` and `[` `]` are properly nested in `s`. -/
def Nested (s : List Char) : Prop := bracketScan [] s = some []

instance : DecidablePred Nested := fun s => inferInstanceAs (Decidable (bracketScan [] s = some []))

/-- Reading `s` leaves every stack of open brackets as it was. -/
def Balanced (s : List Char) : Prop := ∀ stack, bracketScan stack s = some stack

theorem bracketScan_append (a b : List Char) : ∀ stack : List Char,
    bracketScan stack (a ++ b) = (bracketScan stack a).bind (bracketScan · b) := by
  induction a with
  | nil => intro stack; rfl
  | cons c a ih =>
    intro stack
    by_cases ho : c = '(' ∨ c = '['
    · simp [bracketScan, ho, ih]
    · by_cases hc : c = ')' ∨ c = ']'
      · cases stack with
        | nil => simp [bracketScan, ho, hc]
        | cons o stack => by_cases h : closes o c <;> simp [bracketScan, ho, hc, h, ih]
      · simp [bracketScan, ho, hc, ih]

theorem bracketScan_extend (below : List Char) : ∀ {a stack r : List Char},
    bracketScan stack a = some r → bracketScan (stack ++ below) a = some (r ++ below)
  | [], _, _, h => by cases h; rfl
  | c :: a, stack, r, h => by
    by_cases ho : c = '(' ∨ c = '['
    · simp only [bracketScan, if_pos ho] at h ⊢
      exact bracketScan_extend below h
    · by_cases hc : c = ')' ∨ c = ']'
      · cases stack with
        | nil => simp [bracketScan, ho, hc] at h
        | cons o stack =>
          by_cases hoc : closes o c
          · simp only [bracketScan, if_neg ho, if_pos hc, if_pos hoc, List.cons_append] at h ⊢
            exact bracketScan_extend below h
          · simp [bracketScan, ho, hc, hoc] at h
      · simp only [bracketScan, if_neg ho, if_neg hc] at h ⊢
        exact bracketScan_extend below h

theorem nested_iff_balanced (s : List Char) : Nested s ↔ Balanced s :=
  ⟨fun h stack => by simpa using bracketScan_extend stack h, fun h => h []⟩

theorem bracketScan_plain {a : List Char} (h : ∀ c ∈ a, c ≠ '(' ∧ c ≠ '[' ∧ c ≠ ')' ∧ c ≠ ']') :
    Balanced a := by
  induction a with
  | nil => exact fun _ => rfl
  | cons c a ih =>
    intro stack
    obtain ⟨h1, h2, h3, h4⟩ := h c (.head _)
    simp only [bracketScan, h1, h2, h3, h4, or_self, if_false]
    exact ih (fun d hd => h d (.tail _ hd)) stack

@[simp] theorem bracketScan_replicate_space (n : Nat) (stack : List Char) :
    bracketScan stack (List.replicate n ' ') = some stack :=
  bracketScan_plain (by simp) stack

@[simp] theorem bracketScan_shiftLines (n : Nat) : ∀ (stack s : List Char),
    bracketScan stack (shiftLines n s) = bracketScan stack s
  | _, [] => rfl
  | stack, c :: s => by
    by_cases h : c = '\n' ∧ opensLine s = true
    · rw [shiftLines_cons_shift h, h.1]
      simp [bracketScan, bracketScan_append, bracketScan_shiftLines n _ s]
    · rw [shiftLines_cons_keep h]
      simp only [bracketScan, bracketScan_shiftLines n _ s]

@[simp] theorem bracketScan_lineAt (k : Nat) (t stack : List Char) :
    bracketScan stack (lineAt k t) = bracketScan stack t := by
  by_cases h : t = [] <;> simp [lineAt, h, bracketScan_append]

theorem Balanced.append {a b : List Char} (ha : Balanced a) (hb : Balanced b) : Balanced (a ++ b) :=
  fun stack => by simp [bracketScan_append, ha stack, hb stack]

theorem bracketScan_join {sep : List Char} (hsep : Balanced sep) :
    ∀ (xs : List (List Char)) (stack : List Char),
      bracketScan stack (join xs sep) = xs.foldlM bracketScan stack
  | [], _ => rfl
  | [x], stack => by simp
  | x :: y :: xs, stack => by
    rw [join_cons_cons, List.append_assoc, bracketScan_append, List.foldlM_cons]
    congr 1
    funext st
    simp [bracketScan_append, hsep st, bracketScan_join hsep (y :: xs) st]

theorem foldlM_balanced {xs : List (List Char)} (h : ∀ x ∈ xs, Balanced x) (stack : List Char) :
    xs.foldlM bracketScan stack = some stack := by
  induction xs with
  | nil => rfl
  | cons x xs ih => simp [h x (.head _) stack, ih fun y hy => h y (.tail _ hy)]

theorem Balanced.join {sep : List Char} {xs : List (List Char)} (hsep : Balanced sep)
    (h : ∀ x ∈ xs, Balanced x) : Balanced (join xs sep) := fun stack => by
  rw [bracketScan_join hsep, foldlM_balanced h]

theorem Balanced.addParens {s : List Char} (h : Balanced s) : Balanced (addParens s) := by
  rcases addParens_cases s with hp | hp <;> rw [hp]
  · exact h
  · intro stack
    simp [bracketScan, bracketScan_append, h _, closes]

theorem Balanced.quote {s : List Char} (h : Balanced s) : Balanced (quote s) := by
  unfold Goose.Coq.quote
  split_ifs
  · exact bracketScan_plain (by decide)
  · intro stack
    simp [bracketScan, bracketScan_append, h _]

theorem Balanced.binder {s : List Char} (h : Balanced s) : Balanced (binder s) := by
  unfold Goose.Coq.binder
  split_ifs
  · exact bracketScan_plain (by decide)
  · exact h.quote

theorem Balanced.callCoq {m : List Char} {args : List (List Char)} (hm : Balanced m)
    (h : ∀ a ∈ args, Balanced a) : Balanced (callCoq m args) :=
  Balanced.join (bracketScan_plain (by decide)) fun x hx => by
    simp only [List.mem_cons, List.mem_map] at hx
    rcases hx with rfl | ⟨a, ha, rfl⟩
    · exact hm
    · exact (h a ha).addParens

theorem Balanced.binaryCoq {x y s : List Char} {op : BinOp} (hx : Balanced x) (hy : Balanced y)
    (h : binaryCoq x op y = some s) : Balanced s := by
  obtain ⟨b, ⟨a, ha⟩, rfl⟩ := binaryCoq_some h
  have hsym : Balanced b := by
    simp only [coqBinOp, List.mem_cons, List.mem_singleton, List.not_mem_nil, or_false] at ha
    rcases ha with h | h | h | h | h | h | h | h | h <;> cases h <;> exact bracketScan_plain (by decide)
  intro stack
  simp [bracketScan_append, hx _, hy _, hsym _, bracketScan]

theorem Balanced.bindingLine {names : List (List Char)} {e t : List Char}
    (hn : ∀ n ∈ names, Balanced n) (he : Balanced e) (h : bindingLine names e = some t) :
    Balanced t := by
  match names, h with
  | [], h =>
    cases h
    intro stack
    simp [bracketScan_append, he _, bracketScan]
  | [n], h =>
    cases h
    intro stack
    simp [bracketScan_append, he _, (hn n (.head _)).binder _, bracketScan]
  | [n0, n1], h =>
    cases h
    intro stack
    simp [bracketScan_append, he _, (hn n0 (.head _)).binder _,
      (hn n1 (.tail _ (.head _))).binder _, bracketScan, closes]

def BalancedBinding (r : List (List Char) × List Char) : Prop := (∀ n ∈ r.1, Balanced n) ∧ Balanced r.2

theorem blockTexts_balanced : ∀ {rs : List (List (List Char) × List Char)} {ts : List (List Char)},
    (∀ r ∈ rs, BalancedBinding r) → blockTexts rs = some ts → ∀ t ∈ ts, Balanced t
  | [], _, _, h => by cases h; simp
  | [(_, e)], _, hr, h => by
    cases h
    simpa using (hr _ (.head _)).2
  | (names, e) :: b :: bs, ts, hr, h => by
    simp only [blockTexts, Option.bind_eq_bind, Option.bind_eq_some, Option.pure_def,
      Option.some.injEq] at h
    obtain ⟨t, ht, ts', hts', rfl⟩ := h
    have first := hr _ (.head _)
    simp only [List.mem_cons, forall_eq_or_imp]
    exact ⟨Balanced.bindingLine first.1 first.2 ht,
      blockTexts_balanced (fun r hr' => hr r (.tail _ hr')) hts'⟩

theorem Balanced.decimal (n : Nat) : Balanced (decimal n) :=
  bracketScan_plain fun c hc => by
    have digit := (decimal_spec n).2.1 c hc
    refine ⟨?_, ?_, ?_, ?_⟩ <;> rintro rfl <;> exact absurd digit (by decide)

theorem Balanced.terminated {sep : List Char} (hsep : Balanced sep) :
    ∀ {xs : List (List Char)}, (∀ x ∈ xs, Balanced x) → ∀ y ∈ terminated sep xs, Balanced y
  | [], _ => by simp [Goose.Coq.terminated]
  | [x], h => by simpa [Goose.Coq.terminated] using h x (.head _)
  | x :: y :: xs, h => by
    simp only [Goose.Coq.terminated, List.mem_cons, forall_eq_or_imp]
    exact ⟨(h x (.head _)).append hsep, Balanced.terminated hsep fun z hz => h z (.tail _ hz)⟩

theorem Balanced.blockCoq {rs : List (List (List Char) × List Char)} {s : List Char}
    (hr : ∀ r ∈ rs, BalancedBinding r) (h : blockCoq rs = some s) : Balanced s := by
  rw [blockCoq_eq] at h
  obtain ⟨ts, hts, rfl⟩ := Option.map_eq_some'.mp h
  exact Balanced.join (bracketScan_plain (by decide)) (blockTexts_balanced hr hts)

theorem foldlM_branchLines (k : Nat) (pre code stack : List Char) :
    (branchLines k pre code).foldlM bracketScan stack =
      (bracketScan stack pre).bind (bracketScan · code) := by
  unfold branchLines
  split_ifs <;> simp [bracketScan_append, bracketScan]

@[simp] theorem bracketScan_join_newline (xs : List (List Char)) (stack : List Char) :
    bracketScan stack (join xs ['\n']) = xs.foldlM bracketScan stack :=
  bracketScan_join (bracketScan_plain (by decide)) xs stack

theorem structLiteralCoq_balanced {n s : List Char} {rs : List (List Char × List Char)}
    {alloc : Bool} (hn : Balanced n) (fields : ∀ r ∈ rs, Balanced r.1 ∧ Balanced r.2)
    (h : structLiteralCoq n rs alloc = some s) : Balanced s := by
  rw [structLiteralCoq_eq, Option.some_inj] at h
  subst h
  have lines : ∀ x ∈ (terminated ";".toList (rs.map fun (f, v) => quote f ++ " ::= ".toList ++ v)).map
      (lineAt 2), Balanced x := by
    simp only [List.mem_map]
    rintro _ ⟨y, hy, rfl⟩ stack
    rw [bracketScan_lineAt]
    refine Balanced.terminated (bracketScan_plain (by decide)) ?_ y hy stack
    simp only [List.mem_map]
    rintro _ ⟨⟨f, v⟩, hfv, rfl⟩ stack
    simp [bracketScan_append, bracketScan, (fields _ hfv).1.quote _, (fields _ hfv).2 _]
  generalize (terminated ";".toList (rs.map fun (f, v) => quote f ++ " ::= ".toList ++ v)).map
    (lineAt 2) = mids at lines ⊢
  intro stack
  cases alloc <;> simp [foldlM_balanced lines, bracketScan_append, hn _, bracketScan, closes]

/-- The texts a node copies into its rendering: names, method names and string values. -/
def NamesNested (bs : List Binding) : Prop := ∀ b ∈ bs, ∀ n ∈ b.names, Nested n

def NestedNode : Expr → Prop
  | .gallinaIdent s | .identExpr s | .gallinaString s | .stringLiteral s | .typeIdent s
  | .structName s => Nested s
  | .callExpr m _ => Nested m
  | .structFieldAccessExpr st f _ _ => Nested st ∧ Nested f
  | .structLiteral n elts _ => Nested n ∧ ∀ fv ∈ elts, Nested fv.field
  | .blockExpr bs | .spawnExpr bs => NamesNested bs
  | .forLoopExpr init _ _ body => (∀ n ∈ init.names, Nested n) ∧ NamesNested body
  | .mapIterExpr k v _ body => Nested k ∧ Nested v ∧ NamesNested body
  | _ => True

theorem Nested.balanced {s : List Char} (h : Nested s) : Balanced s := (nested_iff_balanced s).mp h

mutual
theorem Expr.coq_balanced : ∀ {e : Expr} {s : List Char}, e.Every NestedNode → e.coq = some s →
    Balanced s
  | .gallinaIdent _, _, h, hs | .typeIdent _, _, h, hs => by
    cases hs
    exact h.1.balanced
  | .identExpr _, _, h, hs | .gallinaString _, _, h, hs => by
    cases hs
    exact h.1.balanced.quote
  | .stringLiteral _, _, h, hs => by
    cases hs
    intro stack
    simp [bracketScan, bracketScan_append, h.1.balanced _, closes]
  | .structName _, _, h, hs => by
    cases hs
    intro stack
    simp [bracketScan, bracketScan_append, h.1.balanced _]
  | .boolLiteral b, _, _, hs => by
    cases hs
    cases b <;> exact bracketScan_plain (by decide)
  | .unitLiteral, _, _, hs => by
    cases hs
    intro stack
    simp [bracketScan, closes]
  | .intLiteral v, _, _, hs => by
    cases hs
    intro stack
    simp [bracketScan, Balanced.decimal _ _]
  | .int32Literal v, _, _, hs => by
    cases hs
    intro stack
    simp [bracketScan, bracketScan_append, Balanced.decimal _ _, closes]
  | .callExpr _ args, s, h, hs => by
    simp only [Expr.coq, Option.bind_eq_bind, Option.bind_eq_some, Option.pure_def,
      Option.some.injEq] at hs
    obtain ⟨ss, hss, rfl⟩ := hs
    exact h.1.balanced.callCoq (Expr.coqList_balanced h.2 hss)
  | .structFieldAccessExpr _ _ x tp, s, h, hs => by
    simp only [Expr.coq, Option.bind_eq_bind, Option.bind_eq_some, Option.pure_def,
      Option.some.injEq] at hs
    obtain ⟨sx, hx, rfl⟩ := hs
    have bx := Expr.coq_balanced h.2 hx
    cases tp
    · refine (Balanced.append h.1.1.balanced (bracketScan_plain (by decide))).callCoq ?_
      simpa using ⟨h.1.2.balanced.quote, bx⟩
    · refine Balanced.callCoq (bracketScan_plain (by decide)) ?_
      simpa using ⟨h.1.1.balanced.append (bracketScan_plain (by decide)), h.1.2.balanced.quote, bx⟩
  | .returnExpr v, _, h, hs => Expr.coq_balanced h.2 hs
  | .structLiteral _ elts _, s, h, hs => by
    simp only [Expr.coq, Option.bind_eq_bind, Option.bind_eq_some] at hs
    obtain ⟨rs, hrs, hs⟩ := hs
    exact structLiteralCoq_balanced h.1.1.balanced (FieldVal.coqList_balanced h.2 h.1.2 hrs) hs
  | .binaryExpr x _ y, s, h, hs => by
    simp only [Expr.coq, Option.bind_eq_bind, Option.bind_eq_some] at hs
    obtain ⟨sx, hx, sy, hy, hs⟩ := hs
    exact (Expr.coq_balanced h.2.1 hx).binaryCoq (Expr.coq_balanced h.2.2 hy) hs
  | .notExpr x, s, h, hs | .derefExpr x, s, h, hs | .sliceType x, s, h, hs
  | .hashTableInsert x, s, h, hs => by
    simp only [Expr.coq, Option.bind_eq_bind, Option.bind_eq_some, Option.pure_def,
      Option.some.injEq] at hs
    obtain ⟨sx, hx, rfl⟩ := hs
    intro stack
    simp [bracketScan, bracketScan_append, (Expr.coq_balanced h.2 hx).addParens _, closes]
  | .refExpr x, s, h, hs | .mapType x, s, h, hs | .ptrType x, s, h, hs => by
    simp only [Expr.coq, Option.bind_eq_bind, Option.bind_eq_some, Option.pure_def,
      Option.some.injEq] at hs
    obtain ⟨sx, hx, rfl⟩ := hs
    exact Balanced.callCoq (bracketScan_plain (by decide)) (by simpa using Expr.coq_balanced h.2 hx)
  | .storeStmt d x, s, h, hs => by
    simp only [Expr.coq, Option.bind_eq_bind, Option.bind_eq_some, Option.pure_def,
      Option.some.injEq] at hs
    obtain ⟨sd, hd, sx, hx, rfl⟩ := hs
    intro stack
    simp [bracketScan, bracketScan_append, Expr.coq_balanced h.2.1 hd _, Expr.coq_balanced h.2.2 hx _]
  | .tupleExpr es, s, h, hs => by
    simp only [Expr.coq, tupleCoq_eq, Option.bind_eq_bind, Option.bind_eq_some,
      Option.some.injEq] at hs
    obtain ⟨ss, hss, rfl⟩ := hs
    have inner := @Balanced.join [',', ' '] _ (bracketScan_plain (by decide)) (Expr.coqList_balanced h.2 hss)
    intro stack
    simp [bracketScan, bracketScan_append, inner _, closes]
  | .tupleType ts, s, h, hs => by
    simp only [Expr.coq, Option.bind_eq_bind, Option.bind_eq_some, Option.pure_def,
      Option.some.injEq] at hs
    obtain ⟨ss, hss, rfl⟩ := hs
    have inner := @Balanced.join [' ', '*', ' '] _ (bracketScan_plain (by decide)) (Expr.coqList_balanced h.2 hss)
    intro stack
    simp [bracketScan, bracketScan_append, inner _, closes]
  | .blockExpr bs, s, h, hs => by
    simp only [Expr.coq, Option.bind_eq_bind, Option.bind_eq_some] at hs
    obtain ⟨rs, hrs, hs⟩ := hs
    exact Balanced.blockCoq (Binding.coqList_balanced h.2 h.1 hrs) hs
  | .ifExpr c t e, s, h, hs => by
    simp only [Expr.coq, ifExprCoq_eq, Option.bind_eq_bind, Option.bind_eq_some,
      Option.some.injEq] at hs
    obtain ⟨sc, hc, st, ht, se, he, rfl⟩ := hs
    intro stack
    simp [foldlM_branchLines, bracketScan_append, bracketScan, closes, Expr.coq_balanced h.2.1 hc _,
      Expr.coq_balanced h.2.2.1 ht _, Expr.coq_balanced h.2.2.2 he _]
  | .forLoopExpr (.mk names i) c p body, s, h, hs => by
    simp only [Expr.coq, Binding.coq, forLoopCoq_eq, Option.bind_eq_bind, Option.bind_eq_some,
      Option.pure_def, Option.some.injEq, Option.map_eq_some'] at hs
    obtain ⟨_, ⟨si, hi, rfl⟩, sc, hc, sp, hp, rs, hrs, sb, hb, t, ht, rfl⟩ := hs
    have first := Balanced.bindingLine (fun n hn => (h.1.1 n hn).balanced) (Expr.coq_balanced h.2.1 hi) ht
    have inner := Balanced.blockCoq (Binding.coqList_balanced h.2.2.2.2 h.1.2 hrs) hb
    intro stack
    simp [bracketScan_append, bracketScan, closes, first _, inner _, Expr.coq_balanced h.2.2.1 hc _,
      Expr.coq_balanced h.2.2.2.1 hp _]
  | .mapIterExpr _ _ m body, s, h, hs => by
    simp only [Expr.coq, mapIterCoq_eq, Option.bind_eq_bind, Option.bind_eq_some,
      Option.some.injEq] at hs
    obtain ⟨sm, hm, rs, hrs, sb, hb, rfl⟩ := hs
    have inner := Balanced.blockCoq (Binding.coqList_balanced h.2.2 h.1.2.2 hrs) hb
    intro stack
    simp [bracketScan_append, bracketScan, closes, inner _, (Expr.coq_balanced h.2.1 hm).addParens _,
      h.1.1.balanced.binder _, h.1.2.1.balanced.binder _]
  | .spawnExpr body, s, h, hs => by
    simp only [Expr.coq, spawnCoq_eq, Option.bind_eq_bind, Option.bind_eq_some,
      Option.some.injEq] at hs
    obtain ⟨rs, hrs, sb, hb, rfl⟩ := hs
    have inner := Balanced.blockCoq (Binding.coqList_balanced h.2 h.1 hrs) hb
    intro stack
    simp [bracketScan_append, bracketScan, closes, inner _]

theorem Expr.coqList_balanced : ∀ {es : List Expr} {ss : List (List Char)},
    Expr.EveryList NestedNode es → Expr.coqList es = some ss → ∀ s ∈ ss, Balanced s
  | [], _, _, hs => by
    cases hs
    simp
  | e :: es, ss, h, hs => by
    simp only [Expr.coqList, Option.bind_eq_bind, Option.bind_eq_some, Option.pure_def,
      Option.some.injEq] at hs
    obtain ⟨s, he, ss', hes, rfl⟩ := hs
    simp only [List.mem_cons, forall_eq_or_imp]
    exact ⟨Expr.coq_balanced h.1 he, Expr.coqList_balanced h.2 hes⟩

theorem Binding.coqList_balanced : ∀ {bs : List Binding} {rs : List (List (List Char) × List Char)},
    Binding.EveryList NestedNode bs → NamesNested bs → Binding.coqList bs = some rs →
      ∀ r ∈ rs, BalancedBinding r
  | [], _, _, _, hs => by
    cases hs
    simp
  | .mk names e :: bs, rs, h, hn, hs => by
    simp only [Binding.coqList, Binding.coq, Option.bind_eq_bind, Option.bind_eq_some,
      Option.pure_def, Option.some.injEq] at hs
    obtain ⟨_, ⟨s, he, rfl⟩, rs', hbs, rfl⟩ := hs
    simp only [List.mem_cons, forall_eq_or_imp]
    exact ⟨⟨fun n hn' => (hn _ (.head _) n hn').balanced, Expr.coq_balanced h.1 he⟩,
      Binding.coqList_balanced h.2 (fun b hb => hn b (.tail _ hb)) hbs⟩

theorem FieldVal.coqList_balanced : ∀ {fs : List FieldVal} {rs : List (List Char × List Char)},
    FieldVal.EveryList NestedNode fs → (∀ fv ∈ fs, Nested fv.field) → FieldVal.coqList fs = some rs →
      ∀ r ∈ rs, Balanced r.1 ∧ Balanced r.2
  | [], _, _, _, hs => by
    cases hs
    simp
  | .mk f v :: fs, rs, h, hn, hs => by
    simp only [FieldVal.coqList, Option.bind_eq_bind, Option.bind_eq_some, Option.pure_def,
      Option.some.injEq] at hs
    obtain ⟨s, hv, rs', hfs, rfl⟩ := hs
    simp only [List.mem_cons, forall_eq_or_imp]
    exact ⟨⟨(hn _ (.head _)).balanced, Expr.coq_balanced h.1 hv⟩,
      FieldVal.coqList_balanced h.2 (fun b hb => hn b (.tail _ hb)) hfs⟩
end

theorem Balanced.commentText {c : List Char} (h : Balanced c) : Balanced (commentText c) := by
  intro stack
  simp [commentText, bracketScan, bracketScan_append, h _, closes]

theorem Balanced.commentLines {c : List Char} (h : Balanced c) : ∀ x ∈ commentLines c, Balanced x := by
  unfold Goose.Coq.commentLines
  split_ifs <;> simp [h.commentText]

/-- The texts a declaration copies: its names, its comment and those of its expressions. -/
def Decl.NestedLeaves : Decl → Prop
  | .funcDecl d => Nested d.name ∧ Nested d.comment ∧
      (∀ a ∈ d.args, Nested a.name ∧ a.type.Every NestedNode) ∧ d.returnType.Every NestedNode ∧
      d.body.Every NestedNode
  | .structDecl d => Nested d.name ∧ Nested d.comment ∧
      ∀ fd ∈ d.fields, Nested fd.name ∧ fd.type.Every NestedNode
  | .typeDecl d => Nested d.name ∧ d.body.Every NestedNode
  | .constDecl d => Nested d.name ∧ Nested d.comment ∧ d.val.Every NestedNode
  | .commentDecl c => Nested c

theorem FuncDecl.type_balanced {d : FuncDecl} {ty : List Char}
    (args : ∀ a ∈ d.args, a.type.Every NestedNode) (ret : d.returnType.Every NestedNode)
    (h : d.type = some ty) : Balanced ty := by
  simp only [FuncDecl.type, Option.bind_eq_bind, Option.bind_eq_some, Option.pure_def,
    Option.some.injEq] at h
  obtain ⟨as, has, r, hr, rfl⟩ := h
  refine Balanced.join (bracketScan_plain (by decide)) fun x hx => ?_
  simp only [List.mem_append, List.mem_singleton] at hx
  rcases hx with hx | rfl
  · split_ifs at hx
    · simp only [List.mem_singleton] at hx
      exact hx ▸ bracketScan_plain (by decide)
    · obtain ⟨a, ha, hax⟩ := mem_of_mapM has x hx
      exact Expr.coq_balanced (args a ha) hax
  · exact Expr.coq_balanced ret hr

theorem FuncDecl.coqDecl_balanced {d : FuncDecl} {s : List Char}
    (h : (Decl.funcDecl d).NestedLeaves) (hs : d.coqDecl = some s) : Balanced s := by
  obtain ⟨name, comment, args, ret, body⟩ := h
  simp only [funcDecl_coqDecl_eq, Option.bind_eq_bind, Option.bind_eq_some, Option.pure_def,
    Option.some.injEq] at hs
  obtain ⟨b, hb, typing, htyping, rfl⟩ := hs
  have signature : Balanced d.signature := by
    unfold FuncDecl.signature
    split_ifs
    · exact bracketScan_plain (by decide)
    · exact Balanced.join (bracketScan_plain (by decide)) (by simpa using fun a ha => (args a ha).1.balanced.binder)
  have typed : ∀ x ∈ typing, Balanced x := by
    unfold FuncDecl.typing at htyping
    split_ifs at htyping
    · obtain ⟨ty, hty, rfl⟩ := Option.map_eq_some'.mp htyping
      have hty := FuncDecl.type_balanced (fun a ha => (args a ha).2) ret hty
      simp only [typingLines, List.mem_cons, List.mem_singleton, List.not_mem_nil, or_false]
      rintro x (rfl | rfl | rfl) stack <;>
        simp [bracketScan, bracketScan_append, name.balanced _, hty _, closes]
    · cases htyping
      simp
  refine Balanced.join (bracketScan_plain (by decide)) fun x hx => ?_
  simp only [List.mem_append, List.mem_cons, List.mem_singleton, List.not_mem_nil, or_false] at hx
  rcases hx with (hx | rfl | rfl | rfl) | hx
  · exact comment.balanced.commentLines x hx
  · intro stack
    simp [bracketScan, bracketScan_append, name.balanced _]
  · intro stack
    simp [bracketScan, bracketScan_append, signature _]
  · intro stack
    simp [bracketScan, bracketScan_append, Expr.coq_balanced body hb _]
  · exact typed x hx

theorem StructDecl.coqDecl_balanced {d : StructDecl} {s : List Char}
    (h : (Decl.structDecl d).NestedLeaves) (hs : d.coqDecl = some s) : Balanced s := by
  obtain ⟨name, comment, fields⟩ := h
  rw [structDecl_coqDecl_eq] at hs
  obtain ⟨fs, hfs, rfl⟩ := Option.map_eq_some'.mp hs
  have fieldLines : ∀ x ∈ (terminated ";".toList fs).map (lineAt 4), Balanced x := by
    simp only [List.mem_map]
    rintro _ ⟨y, hy, rfl⟩ stack
    rw [bracketScan_lineAt]
    refine Balanced.terminated (bracketScan_plain (by decide)) (fun f hf => ?_) y hy stack
    obtain ⟨fd, hfd, hf⟩ := mem_of_mapM hfs f hf
    simp only [FieldDecl.coqField, Option.bind_eq_bind, Option.bind_eq_some, Option.pure_def,
      Option.some.injEq] at hf
    obtain ⟨t, ht, rfl⟩ := hf
    intro stack
    simp [bracketScan_append, bracketScan, (fields fd hfd).1.balanced.quote _,
      Expr.coq_balanced (fields fd hfd).2 ht _]
  have noteLines : ∀ x ∈ (commentLines d.comment).map (lineAt 2), Balanced x := by
    simp only [List.mem_map]
    rintro _ ⟨y, hy, rfl⟩ stack
    rw [bracketScan_lineAt]
    exact comment.balanced.commentLines y hy stack
  generalize (terminated ";".toList fs).map (lineAt 4) = fls at fieldLines ⊢
  generalize (commentLines d.comment).map (lineAt 2) = nls at noteLines ⊢
  intro stack
  simp [foldlM_balanced fieldLines, foldlM_balanced noteLines, bracketScan_append, name.balanced _,
    bracketScan, closes]

theorem Decl.coqDecl_balanced : ∀ {d : Decl} {s : List Char}, d.NestedLeaves → d.coqDecl = some s →
    Balanced s
  | .funcDecl _, _, h, hs => FuncDecl.coqDecl_balanced h hs
  | .structDecl _, _, h, hs => StructDecl.coqDecl_balanced h hs
  | .typeDecl d, _, ⟨name, body⟩, hs => by
    rw [Decl.coqDecl, typeDecl_coqDecl_eq] at hs
    obtain ⟨b, hb, rfl⟩ := Option.map_eq_some'.mp hs
    intro stack
    simp [bracketScan_append, bracketScan, name.balanced _, Expr.coq_balanced body hb _]
  | .constDecl d, _, ⟨name, comment, val⟩, hs => by
    rw [Decl.coqDecl, constDecl_coqDecl_eq] at hs
    obtain ⟨v, hv, rfl⟩ := Option.map_eq_some'.mp hs
    refine Balanced.join (bracketScan_plain (by decide)) fun x hx => ?_
    simp only [List.mem_append, List.mem_singleton] at hx
    rcases hx with hx | rfl
    · exact comment.balanced.commentLines x hx
    · intro stack
      simp [bracketScan_append, bracketScan, name.balanced _, Expr.coq_balanced val hv _]
  | .commentDecl c, _, h, hs => by
    rw [Decl.coqDecl, commentDeclCoq_eq, Option.some_inj] at hs
    subst hs
    exact Balanced.join (bracketScan_plain (by decide)) h.balanced.commentLines

/-- Every declaration whose copied texts nest their brackets renders to a text that nests
them: each delimiter the printer opens is closed within the declaration. -/
theorem coqDecl_brackets_nested (d : Decl) (h : d.NestedLeaves) (s : List Char)
    (hs : d.coqDecl = some s) : Nested s :=
  (nested_iff_balanced s).mpr (Decl.coqDecl_balanced h hs)

/-- The declaration of a pair type whose second component is a slice of pointers. -/
def pairTypeDecl : Decl :=
  .typeDecl ⟨"Pair".toList, .tupleType [.typeIdent "uint64T".toList,
    .sliceType (.ptrType (.typeIdent "boolT".toList))]⟩

theorem pairTypeDecl_nested :
    pairTypeDecl.NestedLeaves ∧
      pairTypeDecl.coqDecl = some "Definition Pair: ty := (uint64T * slice.T (refT boolT)).".toList ∧
      Nested "Definition Pair: ty := (uint64T * slice.T (refT boolT)).".toList := by
  have leaves : pairTypeDecl.NestedLeaves := by
    simp [pairTypeDecl, Decl.NestedLeaves, Expr.Every, NestedNode]
    decide
  have rendered : pairTypeDecl.coqDecl =
      some "Definition Pair: ty := (uint64T * slice.T (refT boolT)).".toList := by
    decide
  exact ⟨leaves, rendered, coqDecl_brackets_nested _ leaves _ rendered⟩

end Goose.Coq
