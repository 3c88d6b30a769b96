import Goose.Coq.Reparse

/-! The characters of a rendering. On its own the printer writes printable ASCII, newlines and
the symbols `λ ⊢ ≤ ≥`; every other character of a rendering is copied from a name, a string
value or a comment of the tree. So a property of characters that holds of the printer's own
and of every copied text holds of the whole output: no tab is written unless a name, a string
or a comment has one. -/

namespace Goose.Coq

/-- The characters the printer writes on its own. -/
def isPrinterChar (c : Char) : Bool :=
  c == '\n' || (' ' ≤ c && c ≤ '~') || c == 'λ' || c == '⊢' || c == '≤' || c == '≥'

theorem isPrinterChar_of_isDigit {c : Char} (h : c.isDigit = true) : isPrinterChar c = true := by
  simp only [Char.isDigit, Bool.and_eq_true, decide_eq_true_eq] at h
  simp only [isPrinterChar, Bool.or_eq_true, Bool.and_eq_true, decide_eq_true_eq]
  refine .inl (.inl (.inl (.inl (.inr ⟨?_, ?_⟩))))
  · show (32 : UInt32) ≤ c.val
    exact UInt32.le_trans (by decide) h.1
  · show c.val ≤ 126
    exact UInt32.le_trans h.2 (by decide)

/-- `P` holds of every character the printer writes on its own. -/
def PrinterClosed (P : Char → Prop) : Prop := ∀ c, isPrinterChar c = true → P c

def AllChars (P : Char → Prop) (s : List Char) : Prop := ∀ c ∈ s, P c

instance {P : Char → Prop} [DecidablePred P] : DecidablePred (AllChars P) := fun s =>
  inferInstanceAs (Decidable (∀ c ∈ s, P c))

section
variable {P : Char → Prop}

theorem AllChars.append {a b : List Char} (ha : AllChars P a) (hb : AllChars P b) :
    AllChars P (a ++ b) :=
  List.forall_mem_append.mpr ⟨ha, hb⟩

theorem PrinterClosed.lit (printer : PrinterClosed P) {s : List Char}
    (h : s.all isPrinterChar = true) : AllChars P s :=
  fun c hc => printer c (List.all_eq_true.mp h c hc)

theorem PrinterClosed.space (printer : PrinterClosed P) : P ' ' := printer ' ' rfl

theorem AllChars.after (printer : PrinterClosed P) {p x : List Char}
    (hp : p.all isPrinterChar = true) (hx : AllChars P x) : AllChars P (p ++ x) :=
  (printer.lit hp).append hx

theorem AllChars.before (printer : PrinterClosed P) {x q : List Char} (hx : AllChars P x)
    (hq : q.all isPrinterChar = true) : AllChars P (x ++ q) :=
  hx.append (printer.lit hq)

theorem AllChars.sep (printer : PrinterClosed P) {x p y : List Char} (hx : AllChars P x)
    (hp : p.all isPrinterChar = true) (hy : AllChars P y) : AllChars P (x ++ p ++ y) :=
  (hx.before printer hp).append hy

theorem AllChars.enclose (printer : PrinterClosed P) {p x q : List Char}
    (hp : p.all isPrinterChar = true) (hx : AllChars P x) (hq : q.all isPrinterChar = true) :
    AllChars P (p ++ x ++ q) :=
  (hx.after printer hp).before printer hq

theorem mem_shiftLines {n : Nat} {c : Char} :
    ∀ {s : List Char}, c ∈ shiftLines n s → c ∈ s ∨ c = ' '
  | [], h => absurd h (List.not_mem_nil _)
  | d :: s, h => by
    by_cases hd : d = '\n' ∧ opensLine s = true
    · rw [shiftLines_cons_shift hd] at h
      simp only [List.mem_cons, List.mem_append, List.mem_replicate] at h
      rcases h with rfl | ⟨-, rfl⟩ | h
      · exact .inl (.head _)
      · exact .inr rfl
      · exact (mem_shiftLines h).imp_left (.tail _)
    · rw [shiftLines_cons_keep hd] at h
      rcases List.mem_cons.mp h with rfl | h
      · exact .inl (.head _)
      · exact (mem_shiftLines h).imp_left (.tail _)

theorem AllChars.shiftLines {s : List Char} (h : AllChars P s) (space : P ' ') (n : Nat) :
    AllChars P (shiftLines n s) := fun c hc => by
  rcases mem_shiftLines hc with hc | rfl
  exacts [h c hc, space]

theorem AllChars.lineAt {s : List Char} (h : AllChars P s) (space : P ' ') (k : Nat) :
    AllChars P (lineAt k s) := by
  unfold Goose.Coq.lineAt
  split
  · exact fun _ hc => absurd hc (List.not_mem_nil _)
  · exact AllChars.append (fun c hc => (List.eq_of_mem_replicate hc) ▸ space)
      (h.shiftLines space k)

theorem AllChars.join {sep : List Char} (hsep : AllChars P sep) :
    ∀ {xs : List (List Char)}, (∀ x ∈ xs, AllChars P x) → AllChars P (join xs sep)
  | [], _ => fun _ hc => absurd hc (List.not_mem_nil _)
  | [x], h => by simpa using h x (.head _)
  | x :: y :: xs, h => by
    rw [join_cons_cons]
    exact ((h x (.head _)).append hsep).append (AllChars.join hsep fun z hz => h z (.tail _ hz))

theorem AllChars.terminated {sep : List Char} (hsep : AllChars P sep) :
    ∀ {xs : List (List Char)}, (∀ x ∈ xs, AllChars P x) →
      ∀ y ∈ terminated sep xs, AllChars P y
  | [], _ => by simp [Goose.Coq.terminated]
  | [x], h => by simpa [Goose.Coq.terminated] using h x (.head _)
  | x :: y :: xs, h => by
    simp only [Goose.Coq.terminated, List.mem_cons, forall_eq_or_imp]
    exact ⟨(h x (.head _)).append hsep, AllChars.terminated hsep fun z hz => h z (.tail _ hz)⟩

def CharsBinding (P : Char → Prop) (r : List (List Char) × List Char) : Prop :=
  (∀ n ∈ r.1, AllChars P n) ∧ AllChars P r.2

def NamesChars (P : Char → Prop) (bs : List Binding) : Prop :=
  ∀ b ∈ bs, ∀ n ∈ b.names, AllChars P n

/-- The texts a node copies into its rendering have the property. -/
def CharsNode (P : Char → Prop) : Expr → Prop
  | .gallinaIdent s | .identExpr s | .gallinaString s | .stringLiteral s | .typeIdent s
  | .structName s => AllChars P s
  | .callExpr m _ => AllChars P m
  | .structFieldAccessExpr st f _ _ => AllChars P st ∧ AllChars P f
  | .structLiteral n elts _ => AllChars P n ∧ ∀ fv ∈ elts, AllChars P fv.field
  | .blockExpr bs | .spawnExpr bs => NamesChars P bs
  | .forLoopExpr init _ _ body => (∀ n ∈ init.names, AllChars P n) ∧ NamesChars P body
  | .mapIterExpr k v _ body => AllChars P k ∧ AllChars P v ∧ NamesChars P body
  | _ => True

theorem AllChars.addParens (printer : PrinterClosed P) {s : List Char} (h : AllChars P s) :
    AllChars P (addParens s) := by
  rcases addParens_cases s with hp | hp <;> rw [hp]
  · exact h
  · exact @AllChars.enclose _ printer ['('] s [')'] (by decide) h (by decide)

theorem AllChars.quote (printer : PrinterClosed P) {s : List Char} (h : AllChars P s) :
    AllChars P (quote s) := by
  unfold Goose.Coq.quote
  split
  · exact printer.lit (by decide)
  · exact @AllChars.enclose _ printer ['"'] s ['"'] (by decide) h (by decide)

theorem AllChars.binder (printer : PrinterClosed P) {s : List Char} (h : AllChars P s) :
    AllChars P (binder s) := by
  unfold Goose.Coq.binder
  split
  · exact printer.lit (by decide)
  · exact h.quote printer

theorem AllChars.decimal (printer : PrinterClosed P) (n : Nat) : AllChars P (decimal n) :=
  fun c hc => printer c (isPrinterChar_of_isDigit ((decimal_spec n).2.1 c hc))

theorem AllChars.callCoq (printer : PrinterClosed P) {m : List Char} {args : List (List Char)}
    (hm : AllChars P m) (h : ∀ a ∈ args, AllChars P a) : AllChars P (callCoq m args) := by
  refine AllChars.join (printer.lit (by decide)) ?_
  simp only [List.mem_cons, List.mem_map, forall_eq_or_imp, forall_exists_index, and_imp,
    forall_apply_eq_imp_iff₂]
  exact ⟨hm, fun a ha => (h a ha).addParens printer⟩

theorem AllChars.binaryCoq (printer : PrinterClosed P) {x y s : List Char} {op : BinOp}
    (hx : AllChars P x) (hy : AllChars P y) (h : binaryCoq x op y = some s) : AllChars P s := by
  obtain ⟨b, ⟨a, ha⟩, rfl⟩ := binaryCoq_some h
  have symbol : (" ".toList ++ b ++ " ".toList).all isPrinterChar = true := by
    simp only [coqBinOp, List.mem_cons, List.mem_singleton, List.not_mem_nil, or_false] at ha
    rcases ha with h | h | h | h | h | h | h | h | h <;> cases h <;> rfl
  simpa only [List.append_assoc] using hx.sep printer symbol hy

theorem AllChars.bindingLine (printer : PrinterClosed P) {names : List (List Char)}
    {e t : List Char} (hn : ∀ n ∈ names, AllChars P n) (he : AllChars P e)
    (h : bindingLine names e = some t) : AllChars P t := by
  match names, h with
  | [], h =>
    cases h
    exact he.before printer (by decide)
  | [n], h =>
    cases h
    exact ((((hn n (.head _)).binder printer).after printer (by decide)).sep printer (by decide)
      he).before printer (by decide)
  | [n0, n1], h =>
    cases h
    exact (((((hn n0 (.head _)).binder printer).after printer (by decide)).sep printer (by decide)
      ((hn n1 (.tail _ (.head _))).binder printer)).sep printer (by decide) he).before printer
      (by decide)

theorem blockTexts_allChars (printer : PrinterClosed P) :
    ∀ {rs : List (List (List Char) × List Char)} {ts : List (List Char)},
      (∀ r ∈ rs, CharsBinding P r) → blockTexts rs = some ts → ∀ t ∈ ts, AllChars P t
  | [], _, _, h => by cases h; simp
  | [(_, e)], _, hr, h => by
    cases h
    simpa using (hr _ (.head _)).2
  | (names, e) :: b :: bs, ts, hr, h => by
    simp only [blockTexts, Option.bind_eq_bind, Option.bind_eq_some, Option.pure_def,
      Option.some.injEq] at h
    obtain ⟨t, ht, ts', hts', rfl⟩ := h
    have first := hr _ (.head _)
    simp only [List.mem_cons, forall_eq_or_imp]
    exact ⟨AllChars.bindingLine printer first.1 first.2 ht,
      blockTexts_allChars printer (fun r hr' => hr r (.tail _ hr')) hts'⟩

theorem AllChars.blockCoq (printer : PrinterClosed P) {rs : List (List (List Char) × List Char)}
    {s : List Char} (hr : ∀ r ∈ rs, CharsBinding P r) (h : blockCoq rs = some s) :
    AllChars P s := by
  rw [blockCoq_eq] at h
  obtain ⟨ts, hts, rfl⟩ := Option.map_eq_some'.mp h
  exact AllChars.join (printer.lit (by decide)) (blockTexts_allChars printer hr hts)

theorem AllChars.branchLines (printer : PrinterClosed P) {pre code : List Char}
    (hpre : pre.all isPrinterChar = true) (hcode : AllChars P code) (k : Nat) :
    ∀ x ∈ branchLines k pre code, AllChars P x := by
  unfold Goose.Coq.branchLines
  split
  · simp only [List.mem_singleton, forall_eq]
    exact ((printer.lit hpre).sep printer (by decide) hcode).lineAt printer.space k
  · simpa using ⟨(printer.lit hpre).lineAt printer.space k, hcode.lineAt printer.space (k + 2)⟩

theorem structLiteralCoq_allChars (printer : PrinterClosed P) {n s : List Char}
    {rs : List (List Char × List Char)} {alloc : Bool} (hn : AllChars P n)
    (fields : ∀ r ∈ rs, AllChars P r.1 ∧ AllChars P r.2)
    (h : structLiteralCoq n rs alloc = some s) : AllChars P s := by
  rw [structLiteralCoq_eq, Option.some_inj] at h
  subst h
  refine AllChars.join (printer.lit (by decide)) ?_
  simp only [List.mem_cons, List.mem_append, List.mem_map, List.mem_singleton, List.not_mem_nil,
    or_false]
  rintro x (rfl | ⟨y, hy, rfl⟩ | rfl)
  · cases alloc <;> exact AllChars.enclose printer (by decide) hn (by decide)
  · refine (AllChars.terminated (printer.lit (by decide)) ?_ y hy).lineAt printer.space 2
    simp only [List.mem_map]
    rintro _ ⟨⟨f, v⟩, hfv, rfl⟩
    exact ((fields _ hfv).1.quote printer).sep printer (by decide) (fields _ hfv).2
  · exact printer.lit (by decide)

mutual
theorem Expr.coq_allChars (printer : PrinterClosed P) :
    ∀ {e : Expr} {s : List Char}, e.Every (CharsNode P) → e.coq = some s → AllChars P s
  | .gallinaIdent _, _, h, hs | .typeIdent _, _, h, hs => by
    cases hs
    exact h.1
  | .identExpr _, _, h, hs | .gallinaString _, _, h, hs => by
    cases hs
    exact h.1.quote printer
  | .stringLiteral _, _, h, hs => by
    cases hs
    exact AllChars.enclose printer (by decide) h.1 (by decide)
  | .structName _, _, h, hs => by
    cases hs
    exact h.1.before printer (by decide)
  | .boolLiteral b, _, _, hs => by
    cases hs
    cases b <;> exact printer.lit (by decide)
  | .unitLiteral, _, _, hs => by
    cases hs
    exact printer.lit (by decide)
  | .intLiteral _, _, _, hs => by
    cases hs
    exact @AllChars.after _ printer ['#'] _ (by decide) (AllChars.decimal printer _)
  | .int32Literal _, _, _, hs => by
    cases hs
    exact AllChars.enclose printer (by decide) (AllChars.decimal printer _) (by decide)
  | .callExpr _ args, s, h, hs => by
    simp only [Expr.coq, Option.bind_eq_bind, Option.bind_eq_some, Option.pure_def,
      Option.some.injEq] at hs
    obtain ⟨ss, hss, rfl⟩ := hs
    exact h.1.callCoq printer (Expr.coqList_allChars printer h.2 hss)
  | .structFieldAccessExpr st f x tp, s, h, hs => by
    simp only [Expr.coq, Option.bind_eq_bind, Option.bind_eq_some, Option.pure_def,
      Option.some.injEq] at hs
    obtain ⟨sx, hx, rfl⟩ := hs
    have bx := Expr.coq_allChars printer h.2 hx
    have field := h.1.2.quote printer
    cases tp
    · exact (h.1.1.before printer (by decide)).callCoq printer (by simpa using ⟨field, bx⟩)
    · have struct : AllChars P (st ++ ".S".toList) := h.1.1.before printer (by decide)
      exact (printer.lit (by decide)).callCoq printer (by simpa using ⟨struct, field, bx⟩)
  | .returnExpr _, _, h, hs => Expr.coq_allChars printer h.2 hs
  | .structLiteral _ elts _, s, h, hs => by
    simp only [Expr.coq, Option.bind_eq_bind, Option.bind_eq_some] at hs
    obtain ⟨rs, hrs, hs⟩ := hs
    exact structLiteralCoq_allChars printer h.1.1
      (FieldVal.coqList_allChars printer h.2 h.1.2 hrs) hs
  | .binaryExpr x _ y, s, h, hs => by
    simp only [Expr.coq, Option.bind_eq_bind, Option.bind_eq_some] at hs
    obtain ⟨sx, hx, sy, hy, hs⟩ := hs
    exact (Expr.coq_allChars printer h.2.1 hx).binaryCoq printer
      (Expr.coq_allChars printer h.2.2 hy) hs
  | .notExpr x, s, h, hs | .sliceType x, s, h, hs => by
    simp only [Expr.coq, Option.bind_eq_bind, Option.bind_eq_some, Option.pure_def,
      Option.some.injEq] at hs
    obtain ⟨sx, hx, rfl⟩ := hs
    exact ((Expr.coq_allChars printer h.2 hx).addParens printer).after printer (by decide)
  | .derefExpr x, s, h, hs => by
    simp only [Expr.coq, Option.bind_eq_bind, Option.bind_eq_some, Option.pure_def,
      Option.some.injEq] at hs
    obtain ⟨sx, hx, rfl⟩ := hs
    exact @AllChars.after _ printer ['!'] _ (by decide)
      ((Expr.coq_allChars printer h.2 hx).addParens printer)
  | .hashTableInsert x, s, h, hs => by
    simp only [Expr.coq, Option.bind_eq_bind, Option.bind_eq_some, Option.pure_def,
      Option.some.injEq] at hs
    obtain ⟨sx, hx, rfl⟩ := hs
    exact AllChars.enclose printer (by decide)
      ((Expr.coq_allChars printer h.2 hx).addParens printer) (by decide)
  | .refExpr x, s, h, hs | .mapType x, s, h, hs | .ptrType x, s, h, hs => by
    simp only [Expr.coq, Option.bind_eq_bind, Option.bind_eq_some, Option.pure_def,
      Option.some.injEq] at hs
    obtain ⟨sx, hx, rfl⟩ := hs
    exact (printer.lit (by decide)).callCoq printer
      (by simpa using Expr.coq_allChars printer h.2 hx)
  | .storeStmt d x, s, h, hs => by
    simp only [Expr.coq, Option.bind_eq_bind, Option.bind_eq_some, Option.pure_def,
      Option.some.injEq] at hs
    obtain ⟨sd, hd, sx, hx, rfl⟩ := hs
    exact (Expr.coq_allChars printer h.2.1 hd).sep printer (by decide)
      (Expr.coq_allChars printer h.2.2 hx)
  | .tupleExpr es, s, h, hs => by
    simp only [Expr.coq, tupleCoq_eq, Option.bind_eq_bind, Option.bind_eq_some,
      Option.some.injEq] at hs
    obtain ⟨ss, hss, rfl⟩ := hs
    have comps : AllChars P (join ss ", ".toList) :=
      AllChars.join (printer.lit (by decide)) (Expr.coqList_allChars printer h.2 hss)
    exact AllChars.enclose printer (by decide) (comps.shiftLines printer.space 1) (by decide)
  | .tupleType ts, s, h, hs => by
    simp only [Expr.coq, Option.bind_eq_bind, Option.bind_eq_some, Option.pure_def,
      Option.some.injEq] at hs
    obtain ⟨ss, hss, rfl⟩ := hs
    exact AllChars.enclose printer (by decide)
      (AllChars.join (printer.lit (by decide)) (Expr.coqList_allChars printer h.2 hss)) (by decide)
  | .blockExpr bs, s, h, hs => by
    simp only [Expr.coq, Option.bind_eq_bind, Option.bind_eq_some] at hs
    obtain ⟨rs, hrs, hs⟩ := hs
    exact AllChars.blockCoq printer (Binding.coqList_allChars printer h.2 h.1 hrs) hs
  | .ifExpr c t e, s, h, hs => by
    simp only [Expr.coq, ifExprCoq_eq, Option.bind_eq_bind, Option.bind_eq_some,
      Option.some.injEq] at hs
    obtain ⟨sc, hc, st, ht, se, he, rfl⟩ := hs
    refine AllChars.join (printer.lit (by decide)) ?_
    simp only [List.mem_cons, List.mem_append]
    rintro x (rfl | hx | hx)
    · exact (Expr.coq_allChars printer h.2.1 hc).after printer (by decide)
    · exact AllChars.branchLines printer (by decide) (Expr.coq_allChars printer h.2.2.1 ht) 0 x hx
    · exact AllChars.branchLines printer (by decide)
        ((Expr.coq_allChars printer h.2.2.2 he).before printer (by decide)) 0 x hx
  | .forLoopExpr (.mk names i) c p body, s, h, hs => by
    simp only [Expr.coq, Binding.coq, forLoopCoq_eq, Option.bind_eq_bind, Option.bind_eq_some,
      Option.pure_def, Option.some.injEq, Option.map_eq_some'] at hs
    obtain ⟨_, ⟨si, hi, rfl⟩, sc, hc, sp, hp, rs, hrs, sb, hb, t, ht, rfl⟩ := hs
    have inner :=
      AllChars.blockCoq printer (Binding.coqList_allChars printer h.2.2.2.2 h.1.2 hrs) hb
    refine AllChars.join (printer.lit (by decide)) ?_
    simp only [List.mem_cons, List.mem_singleton, List.not_mem_nil, or_false]
    rintro x (rfl | rfl | rfl)
    · exact AllChars.bindingLine printer h.1.1 (Expr.coq_allChars printer h.2.1 hi) ht
    · exact (((Expr.coq_allChars printer h.2.2.1 hc).after printer (by decide)).sep printer
        (by decide) (Expr.coq_allChars printer h.2.2.2.1 hp)).before printer (by decide)
    · exact (inner.before printer (by decide)).lineAt printer.space 2
  | .mapIterExpr _ _ m body, s, h, hs => by
    simp only [Expr.coq, mapIterCoq_eq, Option.bind_eq_bind, Option.bind_eq_some,
      Option.some.injEq] at hs
    obtain ⟨sm, hm, rs, hrs, sb, hb, rfl⟩ := hs
    have inner := AllChars.blockCoq printer (Binding.coqList_allChars printer h.2.2 h.1.2.2 hrs) hb
    refine AllChars.join (printer.lit (by decide)) ?_
    simp only [List.mem_cons, List.mem_singleton, List.not_mem_nil, or_false]
    rintro x (rfl | rfl)
    · have range : AllChars P ("Data.mapIter ".toList ++ addParens sm) :=
        ((Expr.coq_allChars printer h.2.1 hm).addParens printer).after printer (by decide)
      exact ((range.sep printer (by decide) (h.1.1.binder printer)).sep printer (by decide)
        (h.1.2.1.binder printer)).before printer (by decide)
    · exact (inner.before printer (by decide)).lineAt printer.space 2
  | .spawnExpr body, s, h, hs => by
    simp only [Expr.coq, spawnCoq_eq, Option.bind_eq_bind, Option.bind_eq_some,
      Option.some.injEq] at hs
    obtain ⟨rs, hrs, sb, hb, rfl⟩ := hs
    have inner := AllChars.blockCoq printer (Binding.coqList_allChars printer h.2 h.1 hrs) hb
    exact ((inner.before printer (by decide)).shiftLines printer.space 6).after printer (by decide)

theorem Expr.coqList_allChars (printer : PrinterClosed P) :
    ∀ {es : List Expr} {ss : List (List Char)},
      Expr.EveryList (CharsNode P) es → Expr.coqList es = some ss → ∀ s ∈ ss, AllChars P s
  | [], _, _, hs => by
    cases hs
    simp
  | e :: es, ss, h, hs => by
    simp only [Expr.coqList, Option.bind_eq_bind, Option.bind_eq_some, Option.pure_def,
      Option.some.injEq] at hs
    obtain ⟨s, he, ss', hes, rfl⟩ := hs
    simp only [List.mem_cons, forall_eq_or_imp]
    exact ⟨Expr.coq_allChars printer h.1 he, Expr.coqList_allChars printer h.2 hes⟩

theorem Binding.coqList_allChars (printer : PrinterClosed P) :
    ∀ {bs : List Binding} {rs : List (List (List Char) × List Char)},
      Binding.EveryList (CharsNode P) bs → NamesChars P bs → Binding.coqList bs = some rs →
        ∀ r ∈ rs, CharsBinding P r
  | [], _, _, _, hs => by
    cases hs
    simp
  | .mk names e :: bs, rs, h, hn, hs => by
    simp only [Binding.coqList, Binding.coq, Option.bind_eq_bind, Option.bind_eq_some,
      Option.pure_def, Option.some.injEq] at hs
    obtain ⟨_, ⟨s, he, rfl⟩, rs', hbs, rfl⟩ := hs
    simp only [List.mem_cons, forall_eq_or_imp]
    exact ⟨⟨hn _ (.head _), Expr.coq_allChars printer h.1 he⟩,
      Binding.coqList_allChars printer h.2 (fun b hb => hn b (.tail _ hb)) hbs⟩

theorem FieldVal.coqList_allChars (printer : PrinterClosed P) :
    ∀ {fs : List FieldVal} {rs : List (List Char × List Char)},
      FieldVal.EveryList (CharsNode P) fs → (∀ fv ∈ fs, AllChars P fv.field) →
        FieldVal.coqList fs = some rs → ∀ r ∈ rs, AllChars P r.1 ∧ AllChars P r.2
  | [], _, _, _, hs => by
    cases hs
    simp
  | .mk f v :: fs, rs, h, hn, hs => by
    simp only [FieldVal.coqList, Option.bind_eq_bind, Option.bind_eq_some, Option.pure_def,
      Option.some.injEq] at hs
    obtain ⟨s, hv, rs', hfs, rfl⟩ := hs
    simp only [List.mem_cons, forall_eq_or_imp]
    exact ⟨⟨hn _ (.head _), Expr.coq_allChars printer h.1 hv⟩,
      FieldVal.coqList_allChars printer h.2 (fun b hb => hn b (.tail _ hb)) hfs⟩
end

theorem AllChars.commentLines (printer : PrinterClosed P) {c : List Char} (h : AllChars P c) :
    ∀ x ∈ commentLines c, AllChars P x := by
  unfold Goose.Coq.commentLines
  split
  · simp
  · simp only [List.mem_singleton, forall_eq, commentText]
    exact ((h.before printer (by decide)).shiftLines printer.space 3).after printer (by decide)

/-- What a declaration copies into its rendering, names, comments and the leaves of its
expressions, has the property. -/
def Decl.CharLeaves (P : Char → Prop) : Decl → Prop
  | .funcDecl d => AllChars P d.name ∧ AllChars P d.comment ∧
      (∀ a ∈ d.args, AllChars P a.name ∧ a.type.Every (CharsNode P)) ∧
      d.returnType.Every (CharsNode P) ∧ d.body.Every (CharsNode P)
  | .structDecl d => AllChars P d.name ∧ AllChars P d.comment ∧
      ∀ fd ∈ d.fields, AllChars P fd.name ∧ fd.type.Every (CharsNode P)
  | .typeDecl d => AllChars P d.name ∧ d.body.Every (CharsNode P)
  | .constDecl d => AllChars P d.name ∧ AllChars P d.comment ∧ d.val.Every (CharsNode P)
  | .commentDecl c => AllChars P c

theorem FuncDecl.type_allChars (printer : PrinterClosed P) {d : FuncDecl} {ty : List Char}
    (args : ∀ a ∈ d.args, a.type.Every (CharsNode P)) (ret : d.returnType.Every (CharsNode P))
    (h : d.type = some ty) : AllChars P ty := by
  simp only [FuncDecl.type, Option.bind_eq_bind, Option.bind_eq_some, Option.pure_def,
    Option.some.injEq] at h
  obtain ⟨as, has, r, hr, rfl⟩ := h
  refine AllChars.join (printer.lit (by decide)) fun x hx => ?_
  simp only [List.mem_append, List.mem_singleton] at hx
  rcases hx with hx | rfl
  · split at hx
    · simp only [List.mem_singleton] at hx
      exact hx ▸ printer.lit (by decide)
    · obtain ⟨a, ha, hax⟩ := mem_of_mapM has x hx
      exact Expr.coq_allChars printer (args a ha) hax
  · exact Expr.coq_allChars printer ret hr

theorem FuncDecl.coqDecl_allChars (printer : PrinterClosed P) {d : FuncDecl} {s : List Char}
    (h : (Decl.funcDecl d).CharLeaves P) (hs : d.coqDecl = some s) : AllChars P s := by
  obtain ⟨name, comment, args, ret, body⟩ := h
  simp only [funcDecl_coqDecl_eq, Option.bind_eq_bind, Option.bind_eq_some, Option.pure_def,
    Option.some.injEq] at hs
  obtain ⟨b, hb, typing, htyping, rfl⟩ := hs
  have signature : AllChars P d.signature := by
    unfold FuncDecl.signature
    split
    · exact printer.lit (by decide)
    · exact AllChars.join (printer.lit (by decide))
        (by simpa using fun a ha => (args a ha).1.binder printer)
  have typed : ∀ x ∈ typing, AllChars P x := by
    unfold FuncDecl.typing at htyping
    split at htyping
    · obtain ⟨ty, hty, rfl⟩ := Option.map_eq_some'.mp htyping
      have hty := FuncDecl.type_allChars printer (fun a ha => (args a ha).2) ret hty
      simp only [typingLines, List.mem_cons, List.mem_singleton, List.not_mem_nil, or_false]
      rintro x (rfl | rfl | rfl)
      · exact (((name.after printer (by decide)).sep printer (by decide) name).sep printer
          (by decide) hty).before printer (by decide)
      · exact printer.lit (by decide)
      · exact AllChars.enclose printer (by decide) name (by decide)
    · cases htyping
      simp
  refine AllChars.join (printer.lit (by decide)) fun x hx => ?_
  simp only [List.mem_append, List.mem_cons, List.mem_singleton, List.not_mem_nil, or_false] at hx
  rcases hx with (hx | rfl | rfl | rfl) | hx
  · exact comment.commentLines printer x hx
  · exact AllChars.enclose printer (by decide) name (by decide)
  · exact (AllChars.enclose printer (by decide) signature (by decide)).lineAt printer.space 2
  · exact ((Expr.coq_allChars printer body hb).before printer (by decide)).lineAt printer.space 4
  · exact typed x hx

theorem StructDecl.coqDecl_allChars (printer : PrinterClosed P) {d : StructDecl} {s : List Char}
    (h : (Decl.structDecl d).CharLeaves P) (hs : d.coqDecl = some s) : AllChars P s := by
  obtain ⟨name, comment, fields⟩ := h
  rw [structDecl_coqDecl_eq] at hs
  obtain ⟨fs, hfs, rfl⟩ := Option.map_eq_some'.mp hs
  have field : ∀ f ∈ fs, AllChars P f := fun f hf => by
    obtain ⟨fd, hfd, hf⟩ := mem_of_mapM hfs f hf
    simp only [FieldDecl.coqField, Option.bind_eq_bind, Option.bind_eq_some, Option.pure_def,
      Option.some.injEq] at hf
    obtain ⟨t, ht, rfl⟩ := hf
    exact ((fields fd hfd).1.quote printer).sep printer (by decide)
      (Expr.coq_allChars printer (fields fd hfd).2 ht)
  refine AllChars.join (printer.lit (by decide)) fun x hx => ?_
  simp only [List.mem_cons, List.mem_append, List.mem_map, List.mem_singleton, List.not_mem_nil,
    or_false] at hx
  rcases hx with rfl | ⟨y, hy, rfl⟩ | rfl | ⟨y, hy, rfl⟩ | hx
  · exact AllChars.enclose printer (by decide) name (by decide)
  · exact (comment.commentLines printer y hy).lineAt printer.space 2
  · exact (printer.lit (by decide)).lineAt printer.space 2
  · exact (AllChars.terminated (printer.lit (by decide)) field y hy).lineAt printer.space 4
  · rcases hx with rfl | rfl | rfl | rfl | rfl | rfl | rfl | rfl
    any_goals exact (printer.lit (by decide)).lineAt printer.space _
    exact AllChars.enclose printer (by decide) name (by decide)

theorem Decl.coqDecl_allChars (printer : PrinterClosed P) :
    ∀ {d : Decl} {s : List Char}, d.CharLeaves P → d.coqDecl = some s → AllChars P s
  | .funcDecl _, _, h, hs => FuncDecl.coqDecl_allChars printer h hs
  | .structDecl _, _, h, hs => StructDecl.coqDecl_allChars printer h hs
  | .typeDecl d, _, ⟨name, body⟩, hs => by
    rw [Decl.coqDecl, typeDecl_coqDecl_eq] at hs
    obtain ⟨b, hb, rfl⟩ := Option.map_eq_some'.mp hs
    exact ((name.after printer (by decide)).sep printer (by decide)
      (Expr.coq_allChars printer body hb)).before printer (by decide)
  | .constDecl d, _, ⟨name, comment, val⟩, hs => by
    rw [Decl.coqDecl, constDecl_coqDecl_eq] at hs
    obtain ⟨v, hv, rfl⟩ := Option.map_eq_some'.mp hs
    refine AllChars.join (printer.lit (by decide)) fun x hx => ?_
    simp only [List.mem_append, List.mem_singleton] at hx
    rcases hx with hx | rfl
    · exact comment.commentLines printer x hx
    · exact (((name.sep printer (by decide) (Expr.coq_allChars printer val hv)).before printer
        (by decide)).shiftLines printer.space 11).after printer (by decide)
  | .commentDecl _, _, h, hs => by
    rw [Decl.coqDecl, commentDeclCoq_eq, Option.some_inj] at hs
    subst hs
    exact AllChars.join (printer.lit (by decide)) (h.commentLines printer)

theorem File.write_allChars (printer : PrinterClosed P) {f : File} {s : List Char}
    (pkg : AllChars P f.goPackage) (decls : ∀ d ∈ f.decls, d.CharLeaves P)
    (hs : f.write = some s) : AllChars P s := by
  simp only [File.write, commentDeclCoq_eq, Option.bind_eq_bind, Option.bind_eq_some,
    Option.pure_def, Option.some.injEq] at hs
  obtain ⟨_, rfl, ds, hds, rfl⟩ := hs
  have newline : AllChars P ['\n'] := printer.lit (by decide)
  have notice : AllChars P f.autogeneratedNotice := pkg.after printer (by decide)
  have header : AllChars P (trimNewlines importHeader) := printer.lit (by decide)
  refine ((((AllChars.join newline (notice.commentLines printer)).append newline).append
    (header.append newline)).append (printer.lit (by decide))).append (AllChars.join newline ?_)
  simp only [List.mem_map]
  rintro _ ⟨x, hx, rfl⟩
  obtain ⟨d, hd, hdx⟩ := mem_of_mapM hds x hx
  exact (Decl.coqDecl_allChars printer (decls d hd) hdx).append newline

end

/-- Every character of a declaration's rendering and of `File.Write`'s output has each property
that holds of the characters the printer writes on its own and of every text copied from the
declarations. -/
theorem output_chars_from_printer_or_leaves (P : Char → Prop) (printer : PrinterClosed P) :
    (∀ (d : Decl) (s : List Char), d.CharLeaves P → d.coqDecl = some s → AllChars P s) ∧
    ∀ (f : File) (s : List Char), AllChars P f.goPackage →
      (∀ d ∈ f.decls, d.CharLeaves P) →
      f.write = some s → AllChars P s :=
  ⟨fun _ _ => Decl.coqDecl_allChars printer, fun _ _ => File.write_allChars printer⟩

def helloConst : Decl := .constDecl
  ⟨"hello".toList, .stringLiteral "Hello,\nworld".toList, "Says hello\non two lines.".toList⟩

/-- The printer writes no tab of its own, so a declaration and a file without one in their
names, strings and comments render without a tab. -/
theorem hello_renders_without_tab :
    PrinterClosed (· ≠ '\t') ∧ helloConst.CharLeaves (· ≠ '\t') ∧
      (∃ s, helloConst.coqDecl = some s ∧ '\t' ∉ s) ∧
      ∃ s, (File.mk "hello".toList [helloConst]).write = some s ∧ '\t' ∉ s := by
  have closed : PrinterClosed (· ≠ '\t') := fun c hc h => by
    subst h
    exact absurd hc (by decide)
  have leaves : helloConst.CharLeaves (· ≠ '\t') := by
    simp only [helloConst, Decl.CharLeaves, Expr.Every, CharsNode]
    decide
  have rendered : helloConst.coqDecl.isSome := by decide
  have written : (File.mk "hello".toList [helloConst]).write.isSome := by decide
  exact ⟨closed, leaves,
    ⟨_, Option.eq_some_of_isSome rendered, fun h =>
      (output_chars_from_printer_or_leaves _ closed).1 _ _ leaves
        (Option.eq_some_of_isSome rendered) '\t' h rfl⟩,
    _, Option.eq_some_of_isSome written, fun h => (output_chars_from_printer_or_leaves _ closed).2
      _ _ (by decide) (by simpa using leaves) (Option.eq_some_of_isSome written) '\t' h rfl⟩

end Goose.Coq
