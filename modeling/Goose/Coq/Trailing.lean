import Goose.Coq.Reparse

/-! Trailing blanks. A line ends in a blank exactly when a space or a tab is followed by a
newline or by the end of the text; `cleanBefore s next` checks this for `s` with `next` after
it, so that it composes over `++`. A rendering is tidy when it starts on its first line and
none of its lines ends in a blank: then it can follow a blank (`let: x := `, `(if: `), and
re-indentation, which puts spaces only before a character other than a newline, keeps it
tidy. -/

namespace Goose.Coq

def isBlank (c : Char) : Bool := c == ' ' || c == '\t'

/-- No line of `s` ends in a space or a tab. -/
def NoTrailingBlank (s : List Char) : Prop :=
  ∀ line ∈ s.splitOn '\n', ∀ c ∈ line.getLast?, isBlank c = false

/-- Followed by `next`, no blank of `s` ends a line. -/
def cleanBefore : List Char → Option Char → Bool
  | [], _ => true
  | c :: s, next => (!isBlank c || (s.head?.or next).any (· != '\n')) && cleanBefore s next

def cleanLines (s : List Char) : Bool := cleanBefore s none

theorem cleanBefore_append (b : List Char) (next : Option Char) : ∀ a : List Char,
    cleanBefore (a ++ b) next = (cleanBefore a (b.head?.or next) && cleanBefore b next)
  | [] => by simp [cleanBefore]
  | c :: a => by
    simp only [List.cons_append, cleanBefore, List.append_eq, cleanBefore_append b next a,
      List.head?_append, Option.or_assoc, Bool.and_assoc]

theorem cleanBefore_of_cleanLines {s : List Char} (h : cleanLines s) (next : Option Char) :
    cleanBefore s next := by
  induction s with
  | nil => rfl
  | cons c s ih =>
    simp only [cleanLines, cleanBefore, Bool.and_eq_true, Bool.or_eq_true] at h ⊢
    refine ⟨h.1.imp_right fun hs => ?_, ih h.2⟩
    cases s <;> simp_all

theorem cleanBefore_newline (s : List Char) : cleanBefore s (some '\n') = cleanLines s := by
  induction s with
  | nil => rfl
  | cons c s ih => cases s <;> simp_all [cleanLines, cleanBefore]

@[simp] theorem head?_shiftLines (n : Nat) (s : List Char) : (shiftLines n s).head? = s.head? := by
  cases s with
  | nil => rfl
  | cons c s => by_cases h : c = '\n' ∧ opensLine s = true <;> simp [shiftLines, h]

theorem cleanBefore_replicate_space (n : Nat) (next : Option Char) :
    cleanBefore (List.replicate n ' ') next = (n == 0 || next.any (· != '\n')) := by
  induction n with
  | zero => rfl
  | succ n ih => cases n <;> simp_all [List.replicate_succ, cleanBefore, isBlank]

@[simp] theorem cleanBefore_shiftLines (n : Nat) (next : Option Char) : ∀ s : List Char,
    cleanBefore (shiftLines n s) next = cleanBefore s next
  | [] => rfl
  | c :: s => by
    have ih := cleanBefore_shiftLines n next s
    by_cases h : c = '\n' ∧ opensLine s = true
    · obtain ⟨rfl, hs⟩ := h
      obtain ⟨d, t, rfl, hd⟩ : ∃ d t, s = d :: t ∧ d ≠ '\n' := by
        cases s with
        | nil => simp [opensLine] at hs
        | cons d t => exact ⟨d, t, rfl, by simpa [opensLine] using hs⟩
      rw [shiftLines_cons_shift ⟨rfl, hs⟩]
      simp [cleanBefore, cleanBefore_append, cleanBefore_replicate_space, isBlank, hd, ih]
    · rw [shiftLines_cons_keep h]
      simp [cleanBefore, ih]

@[simp] theorem cleanLines_shiftLines (n : Nat) (s : List Char) :
    cleanLines (shiftLines n s) = cleanLines s :=
  cleanBefore_shiftLines n none s

theorem cleanLines_iff (s : List Char) : cleanLines s ↔ NoTrailingBlank s := by
  induction s with
  | nil => simp [cleanLines, cleanBefore, NoTrailingBlank]
  | cons c s ih =>
    obtain ⟨l, ls, hsplit, hl⟩ := splitOn_newline_head s
    by_cases hc : c = '\n'
    · subst hc
      have lines : ('\n' :: s).splitOn '\n' = [] :: s.splitOn '\n' := by simp [splitOn_newline_cons]
      have step : cleanLines ('\n' :: s) = cleanLines s := by simp [cleanLines, cleanBefore, isBlank]
      rw [step, ih, NoTrailingBlank, NoTrailingBlank, lines]
      simp
    · have lines : (c :: s).splitOn '\n' = (c :: l) :: ls := by
        simp [splitOn_newline_cons, hc, hsplit]
      simp only [NoTrailingBlank, hsplit, lines, List.mem_cons, forall_eq_or_imp] at ih ⊢
      by_cases hl' : l = []
      · subst hl'
        have hs : s.head?.any (· != '\n') = false := by
          cases s with
          | nil => rfl
          | cons d t => simpa [opensLine] using hl.mp rfl
        have ih' : cleanBefore s none = true ↔ ∀ a ∈ ls, ∀ c ∈ a.getLast?, isBlank c = false := by
          simpa [cleanLines] using ih
        simp [cleanLines, cleanBefore, hs, ih']
      · have hs : s.head?.any (· != '\n') = true := by
          cases s with
          | nil => exact absurd (hl.mpr rfl) hl'
          | cons d t => simpa [opensLine] using mt hl.mpr hl'
        obtain ⟨x, l', rfl⟩ := List.exists_cons_of_ne_nil hl'
        simpa [cleanLines, cleanBefore, hs, List.getLast?_cons] using ih

instance : DecidablePred NoTrailingBlank := fun s => decidable_of_iff _ (cleanLines_iff s)

theorem cleanBefore_of_no_newline {s : List Char} (hs : '\n' ∉ s) {c : Char} (hc : c ≠ '\n') :
    cleanBefore s (some c) := by
  induction s with
  | nil => rfl
  | cons d s ih =>
    simp only [List.mem_cons, not_or] at hs
    simp only [cleanBefore, ih hs.2, Bool.and_true, Bool.or_eq_true]
    refine .inr ?_
    cases s with
    | nil => simpa using hc
    | cons e s => simpa using Ne.symm (List.ne_of_not_mem_cons hs.2)

theorem cleanBefore_of_no_blank {s : List Char} (hs : ∀ c ∈ s, isBlank c = false)
    (next : Option Char) : cleanBefore s next := by
  induction s with
  | nil => rfl
  | cons d s ih => simp_all [cleanBefore]

theorem cleanBefore_some {c : Char} (hc : c ≠ '\n') : ∀ a : List Char,
    cleanBefore a (some c) = cleanBefore a (some ' ')
  | [] => rfl
  | x :: a => by
    simp only [cleanBefore, cleanBefore_some hc a]
    cases a <;> simp [hc]

theorem cleanBefore_opens {b : List Char} (hb : opensLine b = true) (a : List Char) :
    cleanBefore a b.head? = cleanBefore a (some ' ') := by
  cases b with
  | nil => cases hb
  | cons c b => exact cleanBefore_some (by simpa using hb) a

theorem cleanLines_append (a b : List Char) :
    cleanLines (a ++ b) = (cleanBefore a b.head? && cleanLines b) := by
  simp [cleanLines, cleanBefore_append]

theorem opensLine_append {a : List Char} (ha : opensLine a = true) (b : List Char) :
    opensLine (a ++ b) = true := by
  cases a with
  | nil => cases ha
  | cons c a => exact ha

/-- A rendering that can follow a blank: it starts a line and no line ends in a blank. -/
structure Tidy (s : List Char) : Prop where
  opens : opensLine s = true
  clean : cleanLines s

instance : DecidablePred Tidy := fun s =>
  decidable_of_iff (opensLine s = true ∧ cleanLines s = true) ⟨fun h => ⟨h.1, h.2⟩, fun h => ⟨h.1, h.2⟩⟩

theorem Tidy.before {s : List Char} (h : Tidy s) (next : Option Char) : cleanBefore s next :=
  cleanBefore_of_cleanLines h.clean next

theorem cleanLines_prepend {p b : List Char} (lead : cleanBefore p (some ' ')) (hb : Tidy b) :
    cleanLines (p ++ b) := by
  simp [cleanLines_append, cleanBefore_opens hb.opens, lead, hb.clean]

theorem Tidy.prepend {p b : List Char} (hp : opensLine p = true) (lead : cleanBefore p (some ' '))
    (hb : Tidy b) : Tidy (p ++ b) :=
  ⟨opensLine_append hp b, cleanLines_prepend lead hb⟩

theorem Tidy.append {a b : List Char} (ha : Tidy a) (hb : cleanLines b) : Tidy (a ++ b) :=
  ⟨opensLine_append ha.opens b, by simp [cleanLines_append, ha.before, hb]⟩

theorem Tidy.sep {a p b : List Char} (ha : Tidy a) (lead : cleanBefore p (some ' '))
    (hb : Tidy b) : Tidy (a ++ p ++ b) := by
  rw [List.append_assoc]
  exact ha.append (cleanLines_prepend lead hb)

theorem Tidy.enclose {p m q : List Char} (hp : opensLine p = true)
    (plain : ∀ c ∈ p, isBlank c = false) (hm : cleanLines m) (hq : Tidy q) : Tidy (p ++ m ++ q) :=
  ⟨opensLine_append (opensLine_append hp m) q, by
    simp [cleanLines_append, cleanBefore_append, cleanBefore_of_no_blank plain,
      cleanBefore_of_cleanLines hm, hq.clean]⟩

theorem Tidy.shiftLines {s : List Char} (h : Tidy s) (n : Nat) : Tidy (shiftLines n s) :=
  ⟨by simpa using h.opens, by simpa using h.clean⟩

theorem Tidy.lineAt {t : List Char} (h : Tidy t) (k : Nat) : Tidy (lineAt k t) := by
  have ne : t ≠ [] := by rintro rfl; cases h.opens
  rw [Goose.Coq.lineAt, if_neg ne]
  refine ⟨?_, ?_⟩
  · cases k <;> simp [h.opens, List.replicate_succ]
  · simp [cleanLines_append, cleanBefore_replicate_space, cleanBefore_opens, h.opens, h.clean]

theorem Tidy.join {sep : List Char} (hsep : '\n' ∉ sep) :
    ∀ {xs : List (List Char)}, xs ≠ [] → (∀ x ∈ xs, Tidy x) → Tidy (join xs sep)
  | [x], _, h => by simpa using h x (.head _)
  | x :: y :: xs, _, h => by
    have rest := Tidy.join hsep (List.cons_ne_nil y xs) fun z hz => h z (.tail _ hz)
    rw [join_cons_cons, List.append_assoc]
    exact (h x (.head _)).append (cleanLines_prepend (cleanBefore_of_no_newline hsep (by decide)) rest)

theorem cleanLines_join {sep : List Char} (hsep : '\n' ∉ sep) {xs : List (List Char)}
    (h : ∀ x ∈ xs, Tidy x) : cleanLines (join xs sep) := by
  cases xs with
  | nil => rfl
  | cons x xs => exact (Tidy.join hsep (List.cons_ne_nil x xs) h).clean

theorem cleanLines_join_newline : ∀ {xs : List (List Char)}, (∀ x ∈ xs, cleanLines x) →
    cleanLines (join xs ['\n'])
  | [], _ => rfl
  | [x], h => by simpa using h x (.head _)
  | x :: y :: xs, h => by
    have rest := @cleanLines_join_newline (y :: xs) fun z hz => h z (.tail _ hz)
    simp only [join_cons_cons, List.append_assoc, cleanLines, cleanBefore_append] at rest ⊢
    simp [cleanBefore_newline, h x (.head _), cleanBefore, isBlank, rest]

theorem Tidy.join_newline {xs : List (List Char)} (hne : xs ≠ []) (h : ∀ x ∈ xs, Tidy x) :
    Tidy (Goose.Coq.join xs ['\n']) := by
  obtain ⟨x, xs, rfl⟩ := List.exists_cons_of_ne_nil hne
  refine ⟨?_, cleanLines_join_newline fun y hy => (h y hy).clean⟩
  cases xs <;> simp [opensLine_append (h x (.head _)).opens, (h x (.head _)).opens]

theorem Tidy.addParens {s : List Char} (h : Tidy s) : Tidy (addParens s) := by
  rcases addParens_cases s with hp | hp <;> rw [hp]
  · exact h
  · exact @Tidy.prepend ['('] _ (by decide) (by decide) (h.append (by decide))

/-- A name is a non-empty text without whitespace. -/
def Word (s : List Char) : Prop := s ≠ [] ∧ ∀ c ∈ s, c.isWhitespace = false

instance : DecidablePred Word := fun _ => inferInstanceAs (Decidable (_ ∧ _))

theorem Word.not_blank {s : List Char} (h : Word s) : ∀ c ∈ s, isBlank c = false := fun c hc => by
  have := h.2 c hc
  simp only [Char.isWhitespace, Bool.or_eq_false_iff, decide_eq_false_iff_not] at this
  simp [isBlank, this.1.1.1, this.1.1.2]

theorem Word.tidy {s : List Char} (h : Word s) : Tidy s := by
  obtain ⟨c, t, rfl⟩ := List.exists_cons_of_ne_nil h.1
  have hc := h.2 c (.head _)
  exact ⟨by simpa using fun hn => by simp [hn, Char.isWhitespace] at hc,
    cleanBefore_of_no_blank h.not_blank _⟩

theorem Word.quote {s : List Char} (h : Word s) : Tidy (quote s) := by
  unfold Goose.Coq.quote
  split_ifs
  · decide
  · exact @Tidy.prepend ['"'] _ (by decide) (by decide) (h.tidy.append (by decide))

theorem Word.binder {s : List Char} (h : Word s) : Tidy (binder s) := by
  unfold Goose.Coq.binder
  split_ifs
  · decide
  · exact h.quote

theorem Tidy.decimal (n : Nat) : Tidy (decimal n) := by
  obtain ⟨nonempty, digits, -⟩ := decimal_spec n
  refine (show Word (Goose.Coq.decimal n) from ⟨nonempty, fun c hc => ?_⟩).tidy
  have := digits c hc
  simp only [Char.isDigit, Bool.and_eq_true, decide_eq_true_eq] at this
  simp only [Char.isWhitespace, Bool.or_eq_false_iff, decide_eq_false_iff_not]
  refine ⟨⟨⟨?_, ?_⟩, ?_⟩, ?_⟩ <;> rintro rfl <;> simp at this

theorem Tidy.callCoq {m : List Char} {args : List (List Char)} (hm : Tidy m)
    (hargs : ∀ a ∈ args, Tidy a) : Tidy (callCoq m args) := by
  refine Tidy.join (by decide) (List.cons_ne_nil _ _) ?_
  simp only [List.mem_cons, List.mem_map, forall_eq_or_imp, forall_exists_index, and_imp,
    forall_apply_eq_imp_iff₂]
  exact ⟨hm, fun a ha => (hargs a ha).addParens⟩

theorem Tidy.terminated {sep : List Char} (hsep : cleanLines sep) :
    ∀ {xs : List (List Char)}, (∀ x ∈ xs, Tidy x) → ∀ y ∈ terminated sep xs, Tidy y
  | [], _ => by simp [Goose.Coq.terminated]
  | [x], h => by simpa [Goose.Coq.terminated] using h x (.head _)
  | x :: y :: xs, h => by
    simp only [Goose.Coq.terminated, List.mem_cons, forall_eq_or_imp]
    exact ⟨(h x (.head _)).append hsep, Tidy.terminated hsep fun z hz => h z (.tail _ hz)⟩

theorem Tidy.binaryCoq {x y s : List Char} {op : BinOp} (hx : Tidy x) (hy : Tidy y)
    (h : binaryCoq x op y = some s) : Tidy s := by
  obtain ⟨b, ⟨a, ha⟩, rfl⟩ := binaryCoq_some h
  have lead : cleanBefore (" ".toList ++ b ++ " ".toList) (some ' ') := by
    simp only [coqBinOp, List.mem_cons, List.mem_singleton, List.not_mem_nil, or_false] at ha
    rcases ha with h | h | h | h | h | h | h | h | h <;> cases h <;> rfl
  simpa only [List.append_assoc] using hx.sep lead hy

theorem Tidy.bindingLine {names : List (List Char)} {e t : List Char} (hn : ∀ n ∈ names, Word n)
    (he : Tidy e) (h : bindingLine names e = some t) : Tidy t := by
  match names, h with
  | [], h =>
    cases h
    exact he.append (by decide)
  | [n], h =>
    cases h
    exact ((Tidy.prepend (by decide) (by decide) (hn n (.head _)).binder).sep (by decide) he).append (by decide)
  | [n0, n1], h =>
    cases h
    exact (((Tidy.prepend (by decide) (by decide) (hn n0 (.head _)).binder).sep (by decide)
      (hn n1 (.tail _ (.head _))).binder).sep (by decide) he).append (by decide)

theorem Tidy.branchLines {pre code : List Char} (hpre : Tidy pre) (hcode : Tidy code) (k : Nat) :
    ∀ x ∈ branchLines k pre code, Tidy x := by
  unfold Goose.Coq.branchLines
  split
  · simpa using (@Tidy.sep pre [' '] code hpre (by decide) hcode).lineAt k
  · simpa using ⟨hpre.lineAt k, hcode.lineAt (k + 2)⟩

def TidyBinding (r : List (List Char) × List Char) : Prop := (∀ n ∈ r.1, Word n) ∧ Tidy r.2

theorem blockTexts_tidy : ∀ {rs : List (List (List Char) × List Char)} {ts : List (List Char)},
    (∀ r ∈ rs, TidyBinding r) → blockTexts rs = some ts → ∀ t ∈ ts, Tidy t
  | [], _, _, h => by cases h; simp
  | [(_, e)], _, hr, h => by
    cases h
    simpa using (hr _ (.head _)).2
  | (names, e) :: b :: bs, ts, hr, h => by
    simp only [blockTexts, Option.bind_eq_bind, Option.bind_eq_some, Option.pure_def,
      Option.some.injEq] at h
    obtain ⟨t, ht, ts', hts', rfl⟩ := h
    have first := hr _ (.head _)
    simp only [List.mem_cons, forall_eq_or_imp]
    exact ⟨Tidy.bindingLine first.1 first.2 ht, blockTexts_tidy (fun r hr' => hr r (.tail _ hr')) hts'⟩

theorem blockTexts_ne_nil : ∀ {rs : List (List (List Char) × List Char)} {ts : List (List Char)},
    blockTexts rs = some ts → rs ≠ [] → ts ≠ []
  | [], _, _, ne => absurd rfl ne
  | [_], _, h, _ => by cases h; simp
  | _ :: _ :: _, _, h, _ => by
    simp only [blockTexts, Option.bind_eq_bind, Option.bind_eq_some, Option.pure_def,
      Option.some.injEq] at h
    obtain ⟨_, _, _, _, rfl⟩ := h
    simp

theorem Tidy.blockCoq {rs : List (List (List Char) × List Char)} {s : List Char}
    (hr : ∀ r ∈ rs, TidyBinding r) (hne : rs ≠ []) (h : blockCoq rs = some s) : Tidy s := by
  rw [blockCoq_eq] at h
  obtain ⟨ts, hts, rfl⟩ := Option.map_eq_some'.mp h
  exact Tidy.join_newline (blockTexts_ne_nil hts hne) (blockTexts_tidy hr hts)

theorem structLiteralCoq_tidy {n s : List Char} {rs : List (List Char × List Char)} {alloc : Bool}
    (hn : Word n) (fields : ∀ r ∈ rs, Word r.1 ∧ Tidy r.2) (h : structLiteralCoq n rs alloc = some s) :
    Tidy s := by
  rw [structLiteralCoq_eq, Option.some_inj] at h
  subst h
  refine Tidy.join_newline (List.cons_ne_nil _ _) ?_
  simp only [List.mem_cons, List.mem_append, List.mem_map, List.mem_singleton, List.not_mem_nil,
    or_false]
  rintro x (rfl | ⟨y, hy, rfl⟩ | rfl)
  · cases alloc <;> exact (Tidy.prepend (by decide) (by decide) hn.tidy).append (by decide)
  · refine (Tidy.terminated (by decide) ?_ y hy).lineAt 2
    simp only [List.mem_map]
    rintro _ ⟨⟨f, v⟩, hfv, rfl⟩
    exact (fields _ hfv).1.quote.sep (by decide) (fields _ hfv).2
  · decide

theorem Binding.coqList_ne_nil {bs : List Binding} {rs : List (List (List Char) × List Char)}
    (h : Binding.coqList bs = some rs) (hne : bs ≠ []) : rs ≠ [] := by
  cases bs with
  | nil => exact absurd rfl hne
  | cons b bs =>
    simp only [Binding.coqList, Option.bind_eq_bind, Option.bind_eq_some, Option.pure_def,
      Option.some.injEq] at h
    obtain ⟨_, _, _, _, rfl⟩ := h
    simp

def NamesWords (bs : List Binding) : Prop := ∀ b ∈ bs, ∀ n ∈ b.names, Word n

/-- The texts a node copies into its rendering: names are words and a string value has no
line that ends in a blank. A block, also as a loop or goroutine body, has a binding. -/
def TidyNode : Expr → Prop
  | .gallinaIdent s | .identExpr s | .gallinaString s | .typeIdent s | .structName s => Word s
  | .stringLiteral v => NoTrailingBlank v
  | .callExpr m _ => Word m
  | .structFieldAccessExpr st f _ _ => Word st ∧ Word f
  | .structLiteral n elts _ => Word n ∧ ∀ fv ∈ elts, Word fv.field
  | .blockExpr bs | .spawnExpr bs => bs ≠ [] ∧ NamesWords bs
  | .forLoopExpr init _ _ body => (∀ n ∈ init.names, Word n) ∧ body ≠ [] ∧ NamesWords body
  | .mapIterExpr k v _ body => Word k ∧ Word v ∧ body ≠ [] ∧ NamesWords body
  | _ => True

mutual
theorem Expr.coq_tidy : ∀ {e : Expr} {s : List Char}, e.Every TidyNode → e.coq = some s → Tidy s
  | .gallinaIdent _, _, h, hs | .typeIdent _, _, h, hs => by
    cases hs
    exact h.1.tidy
  | .identExpr _, _, h, hs | .gallinaString _, _, h, hs => by
    cases hs
    exact h.1.quote
  | .stringLiteral _, _, h, hs => by
    cases hs
    exact Tidy.enclose (by decide) (by decide) ((cleanLines_iff _).mpr h.1) (by decide)
  | .structName _, _, h, hs => by
    cases hs
    exact h.1.tidy.append (by decide)
  | .boolLiteral b, _, _, hs => by
    cases hs
    cases b <;> decide
  | .unitLiteral, _, _, hs => by
    cases hs
    decide
  | .intLiteral _, _, _, hs => by
    cases hs
    exact @Tidy.prepend ['#'] _ (by decide) (by decide) (Tidy.decimal _)
  | .int32Literal _, _, _, hs => by
    cases hs
    exact (Tidy.prepend (by decide) (by decide) (Tidy.decimal _)).append (by decide)
  | .callExpr _ args, s, h, hs => by
    simp only [Expr.coq, Option.bind_eq_bind, Option.bind_eq_some, Option.pure_def,
      Option.some.injEq] at hs
    obtain ⟨ss, hss, rfl⟩ := hs
    exact h.1.tidy.callCoq (Expr.coqList_tidy h.2 hss)
  | .structFieldAccessExpr _ _ x tp, s, h, hs => by
    simp only [Expr.coq, Option.bind_eq_bind, Option.bind_eq_some, Option.pure_def,
      Option.some.injEq] at hs
    obtain ⟨sx, hx, rfl⟩ := hs
    have bx := Expr.coq_tidy h.2 hx
    cases tp
    · refine (h.1.1.tidy.append (by decide)).callCoq ?_
      simpa using ⟨h.1.2.quote, bx⟩
    · refine Tidy.callCoq (by decide) ?_
      simp only [List.mem_cons, List.mem_singleton, List.not_mem_nil, or_false]
      rintro a (rfl | rfl | rfl)
      exacts [h.1.1.tidy.append (by decide), h.1.2.quote, bx]
  | .returnExpr _, _, h, hs => Expr.coq_tidy h.2 hs
  | .structLiteral _ elts _, s, h, hs => by
    simp only [Expr.coq, Option.bind_eq_bind, Option.bind_eq_some] at hs
    obtain ⟨rs, hrs, hs⟩ := hs
    exact structLiteralCoq_tidy h.1.1 (FieldVal.coqList_tidy h.2 h.1.2 hrs) hs
  | .binaryExpr x _ y, s, h, hs => by
    simp only [Expr.coq, Option.bind_eq_bind, Option.bind_eq_some] at hs
    obtain ⟨sx, hx, sy, hy, hs⟩ := hs
    exact (Expr.coq_tidy h.2.1 hx).binaryCoq (Expr.coq_tidy h.2.2 hy) hs
  | .notExpr x, s, h, hs | .sliceType x, s, h, hs => by
    simp only [Expr.coq, Option.bind_eq_bind, Option.bind_eq_some, Option.pure_def,
      Option.some.injEq] at hs
    obtain ⟨sx, hx, rfl⟩ := hs
    exact Tidy.prepend (by decide) (by decide) (Expr.coq_tidy h.2 hx).addParens
  | .derefExpr x, s, h, hs => by
    simp only [Expr.coq, Option.bind_eq_bind, Option.bind_eq_some, Option.pure_def,
      Option.some.injEq] at hs
    obtain ⟨sx, hx, rfl⟩ := hs
    exact @Tidy.prepend ['!'] _ (by decide) (by decide) (Expr.coq_tidy h.2 hx).addParens
  | .hashTableInsert x, s, h, hs => by
    simp only [Expr.coq, Option.bind_eq_bind, Option.bind_eq_some, Option.pure_def,
      Option.some.injEq] at hs
    obtain ⟨sx, hx, rfl⟩ := hs
    exact (Tidy.prepend (by decide) (by decide) (Expr.coq_tidy h.2 hx).addParens).append (by decide)
  | .refExpr x, s, h, hs | .mapType x, s, h, hs | .ptrType x, s, h, hs => by
    simp only [Expr.coq, Option.bind_eq_bind, Option.bind_eq_some, Option.pure_def,
      Option.some.injEq] at hs
    obtain ⟨sx, hx, rfl⟩ := hs
    exact Tidy.callCoq (by decide) (by simpa using Expr.coq_tidy h.2 hx)
  | .storeStmt d x, s, h, hs => by
    simp only [Expr.coq, Option.bind_eq_bind, Option.bind_eq_some, Option.pure_def,
      Option.some.injEq] at hs
    obtain ⟨sd, hd, sx, hx, rfl⟩ := hs
    exact (Expr.coq_tidy h.2.1 hd).sep (by decide) (Expr.coq_tidy h.2.2 hx)
  | .tupleExpr es, s, h, hs => by
    simp only [Expr.coq, tupleCoq_eq, Option.bind_eq_bind, Option.bind_eq_some,
      Option.some.injEq] at hs
    obtain ⟨ss, hss, rfl⟩ := hs
    refine Tidy.enclose (by decide) (by decide) ?_ (by decide)
    rw [cleanLines_shiftLines]
    exact cleanLines_join (by decide) (Expr.coqList_tidy h.2 hss)
  | .tupleType ts, s, h, hs => by
    simp only [Expr.coq, Option.bind_eq_bind, Option.bind_eq_some, Option.pure_def,
      Option.some.injEq] at hs
    obtain ⟨ss, hss, rfl⟩ := hs
    exact Tidy.enclose (by decide) (by decide) (cleanLines_join (by decide) (Expr.coqList_tidy h.2 hss))
      (by decide)
  | .blockExpr bs, s, h, hs => by
    simp only [Expr.coq, Option.bind_eq_bind, Option.bind_eq_some] at hs
    obtain ⟨rs, hrs, hs⟩ := hs
    exact Tidy.blockCoq (Binding.coqList_tidy h.2 h.1.2 hrs) (Binding.coqList_ne_nil hrs h.1.1) hs
  | .ifExpr c t e, s, h, hs => by
    simp only [Expr.coq, ifExprCoq_eq, Option.bind_eq_bind, Option.bind_eq_some,
      Option.some.injEq] at hs
    obtain ⟨sc, hc, st, ht, se, he, rfl⟩ := hs
    refine Tidy.join_newline (List.cons_ne_nil _ _) ?_
    simp only [List.mem_cons, List.mem_append]
    rintro x (rfl | hx | hx)
    · exact Tidy.prepend (by decide) (by decide) (Expr.coq_tidy h.2.1 hc)
    · exact Tidy.branchLines (by decide) (Expr.coq_tidy h.2.2.1 ht) 0 x hx
    · exact Tidy.branchLines (by decide) ((Expr.coq_tidy h.2.2.2 he).append (by decide)) 0 x hx
  | .forLoopExpr (.mk names i) c p body, s, h, hs => by
    simp only [Expr.coq, Binding.coq, forLoopCoq_eq, Option.bind_eq_bind, Option.bind_eq_some,
      Option.pure_def, Option.some.injEq, Option.map_eq_some'] at hs
    obtain ⟨_, ⟨si, hi, rfl⟩, sc, hc, sp, hp, rs, hrs, sb, hb, t, ht, rfl⟩ := hs
    have inner := Tidy.blockCoq (Binding.coqList_tidy h.2.2.2.2 h.1.2.2 hrs)
      (Binding.coqList_ne_nil hrs h.1.2.1) hb
    refine Tidy.join_newline (List.cons_ne_nil _ _) ?_
    simp only [List.mem_cons, List.mem_singleton, List.not_mem_nil, or_false]
    rintro x (rfl | rfl | rfl)
    · exact Tidy.bindingLine h.1.1 (Expr.coq_tidy h.2.1 hi) ht
    · exact ((Tidy.prepend (by decide) (by decide) (Expr.coq_tidy h.2.2.1 hc)).sep (by decide)
        (Expr.coq_tidy h.2.2.2.1 hp)).append (by decide)
    · exact (inner.append (by decide)).lineAt 2
  | .mapIterExpr _ _ m body, s, h, hs => by
    simp only [Expr.coq, mapIterCoq_eq, Option.bind_eq_bind, Option.bind_eq_some,
      Option.some.injEq] at hs
    obtain ⟨sm, hm, rs, hrs, sb, hb, rfl⟩ := hs
    have inner := Tidy.blockCoq (Binding.coqList_tidy h.2.2 h.1.2.2.2 hrs)
      (Binding.coqList_ne_nil hrs h.1.2.2.1) hb
    refine Tidy.join_newline (List.cons_ne_nil _ _) ?_
    simp only [List.mem_cons, List.mem_singleton, List.not_mem_nil, or_false]
    rintro x (rfl | rfl)
    · exact (((Tidy.prepend (by decide) (by decide) (Expr.coq_tidy h.2.1 hm).addParens).sep
        (by decide) h.1.1.binder).sep (by decide) h.1.2.1.binder).append (by decide)
    · exact (inner.append (by decide)).lineAt 2
  | .spawnExpr body, s, h, hs => by
    simp only [Expr.coq, spawnCoq_eq, Option.bind_eq_bind, Option.bind_eq_some,
      Option.some.injEq] at hs
    obtain ⟨rs, hrs, sb, hb, rfl⟩ := hs
    have inner := Tidy.blockCoq (Binding.coqList_tidy h.2 h.1.2 hrs) (Binding.coqList_ne_nil hrs h.1.1) hb
    exact Tidy.prepend (by decide) (by decide) ((inner.append (by decide)).shiftLines 6)

theorem Expr.coqList_tidy : ∀ {es : List Expr} {ss : List (List Char)},
    Expr.EveryList TidyNode es → Expr.coqList es = some ss → ∀ s ∈ ss, Tidy s
  | [], _, _, hs => by
    cases hs
    simp
  | e :: es, ss, h, hs => by
    simp only [Expr.coqList, Option.bind_eq_bind, Option.bind_eq_some, Option.pure_def,
      Option.some.injEq] at hs
    obtain ⟨s, he, ss', hes, rfl⟩ := hs
    simp only [List.mem_cons, forall_eq_or_imp]
    exact ⟨Expr.coq_tidy h.1 he, Expr.coqList_tidy h.2 hes⟩

theorem Binding.coqList_tidy : ∀ {bs : List Binding} {rs : List (List (List Char) × List Char)},
    Binding.EveryList TidyNode bs → NamesWords bs → Binding.coqList bs = some rs →
      ∀ r ∈ rs, TidyBinding r
  | [], _, _, _, hs => by
    cases hs
    simp
  | .mk names e :: bs, rs, h, hn, hs => by
    simp only [Binding.coqList, Binding.coq, Option.bind_eq_bind, Option.bind_eq_some,
      Option.pure_def, Option.some.injEq] at hs
    obtain ⟨_, ⟨s, he, rfl⟩, rs', hbs, rfl⟩ := hs
    simp only [List.mem_cons, forall_eq_or_imp]
    exact ⟨⟨hn _ (.head _), Expr.coq_tidy h.1 he⟩,
      Binding.coqList_tidy h.2 (fun b hb => hn b (.tail _ hb)) hbs⟩

theorem FieldVal.coqList_tidy : ∀ {fs : List FieldVal} {rs : List (List Char × List Char)},
    FieldVal.EveryList TidyNode fs → (∀ fv ∈ fs, Word fv.field) → FieldVal.coqList fs = some rs →
      ∀ r ∈ rs, Word r.1 ∧ Tidy r.2
  | [], _, _, _, hs => by
    cases hs
    simp
  | .mk f v :: fs, rs, h, hn, hs => by
    simp only [FieldVal.coqList, Option.bind_eq_bind, Option.bind_eq_some, Option.pure_def,
      Option.some.injEq] at hs
    obtain ⟨s, hv, rs', hfs, rfl⟩ := hs
    simp only [List.mem_cons, forall_eq_or_imp]
    exact ⟨⟨hn _ (.head _), Expr.coq_tidy h.1 hv⟩,
      FieldVal.coqList_tidy h.2 (fun b hb => hn b (.tail _ hb)) hfs⟩
end

/-- A comment that `AddComment` writes with no trailing blank: no line of it ends in a blank,
and it does not start with a newline, which would end the line `(* ` in a blank. -/
def TidyComment (c : List Char) : Prop := NoTrailingBlank c ∧ c.head? ≠ some '\n'

instance : DecidablePred TidyComment := fun _ => inferInstanceAs (Decidable (_ ∧ _))

theorem Tidy.commentText {c : List Char} (hc : opensLine c = true) (clean : cleanBefore c (some ' ')) :
    Tidy (commentText c) :=
  Tidy.prepend (by decide) (by decide)
    (Tidy.shiftLines ⟨opensLine_append hc _, by
      simp only [cleanLines_append, Bool.and_eq_true]
      exact ⟨clean, by decide⟩⟩ 3)

theorem TidyComment.lines {c : List Char} (h : TidyComment c) : ∀ x ∈ commentLines c, Tidy x := by
  unfold commentLines
  split_ifs with hc
  · simp
  · obtain ⟨d, c', rfl⟩ := List.exists_cons_of_ne_nil hc
    simpa using Tidy.commentText (by simpa using h.2)
      (cleanBefore_of_cleanLines ((cleanLines_iff _).mpr h.1) _)

/-- What a declaration copies into its rendering: its names, its comment and the leaves of
its expressions. -/
def Decl.TidyLeaves : Decl → Prop
  | .funcDecl d => Word d.name ∧ TidyComment d.comment ∧
      (∀ a ∈ d.args, Word a.name ∧ a.type.Every TidyNode) ∧ d.returnType.Every TidyNode ∧
      d.body.Every TidyNode
  | .structDecl d => Word d.name ∧ TidyComment d.comment ∧
      ∀ fd ∈ d.fields, Word fd.name ∧ fd.type.Every TidyNode
  | .typeDecl d => Word d.name ∧ d.body.Every TidyNode
  | .constDecl d => Word d.name ∧ TidyComment d.comment ∧ d.val.Every TidyNode
  | .commentDecl c => TidyComment c

theorem FuncDecl.type_tidy {d : FuncDecl} {ty : List Char}
    (args : ∀ a ∈ d.args, a.type.Every TidyNode) (ret : d.returnType.Every TidyNode)
    (h : d.type = some ty) : Tidy ty := by
  simp only [FuncDecl.type, Option.bind_eq_bind, Option.bind_eq_some, Option.pure_def,
    Option.some.injEq] at h
  obtain ⟨as, has, r, hr, rfl⟩ := h
  refine Tidy.join (by decide) (by simp) fun x hx => ?_
  simp only [List.mem_append, List.mem_singleton] at hx
  rcases hx with hx | rfl
  · split_ifs at hx
    · simp only [List.mem_singleton] at hx
      exact hx ▸ (by decide)
    · obtain ⟨a, ha, hax⟩ := mem_of_mapM has x hx
      exact Expr.coq_tidy (args a ha) hax
  · exact Expr.coq_tidy ret hr

theorem FuncDecl.coqDecl_clean {d : FuncDecl} {s : List Char}
    (h : (Decl.funcDecl d).TidyLeaves) (hs : d.coqDecl = some s) : cleanLines s := by
  obtain ⟨name, comment, args, ret, body⟩ := h
  simp only [funcDecl_coqDecl_eq, Option.bind_eq_bind, Option.bind_eq_some, Option.pure_def,
    Option.some.injEq] at hs
  obtain ⟨b, hb, typing, htyping, rfl⟩ := hs
  have signature : Tidy d.signature := by
    unfold FuncDecl.signature
    split_ifs with none
    · decide
    · exact Tidy.join (by decide) (by simpa using none)
        (by simpa using fun a ha => (args a ha).1.binder)
  have typed : ∀ x ∈ typing, Tidy x := by
    unfold FuncDecl.typing at htyping
    split_ifs at htyping
    · obtain ⟨ty, hty, rfl⟩ := Option.map_eq_some'.mp htyping
      have hty := FuncDecl.type_tidy (fun a ha => (args a ha).2) ret hty
      simp only [typingLines, List.mem_cons, List.mem_singleton, List.not_mem_nil, or_false]
      rintro x (rfl | rfl | rfl)
      · exact ((((Tidy.prepend (by decide) (by decide) name.tidy).sep (by decide) name.tidy).sep
          (by decide) hty).append (by decide))
      · decide
      · exact (Tidy.prepend (by decide) (by decide) name.tidy).append (by decide)
    · cases htyping
      simp
  refine cleanLines_join_newline fun x hx => Tidy.clean ?_
  simp only [List.mem_append, List.mem_cons, List.mem_singleton, List.not_mem_nil, or_false] at hx
  rcases hx with (hx | rfl | rfl | rfl) | hx
  · exact comment.lines x hx
  · exact (Tidy.prepend (by decide) (by decide) name.tidy).append (by decide)
  · exact ((Tidy.prepend (by decide) (by decide) signature).append (by decide)).lineAt 2
  · exact ((Expr.coq_tidy body hb).append (by decide)).lineAt 4
  · exact typed x hx

theorem StructDecl.coqDecl_clean {d : StructDecl} {s : List Char}
    (h : (Decl.structDecl d).TidyLeaves) (hs : d.coqDecl = some s) : cleanLines s := by
  obtain ⟨name, comment, fields⟩ := h
  rw [structDecl_coqDecl_eq] at hs
  obtain ⟨fs, hfs, rfl⟩ := Option.map_eq_some'.mp hs
  have field : ∀ f ∈ fs, Tidy f := fun f hf => by
    obtain ⟨fd, hfd, hf⟩ := mem_of_mapM hfs f hf
    simp only [FieldDecl.coqField, Option.bind_eq_bind, Option.bind_eq_some, Option.pure_def,
      Option.some.injEq] at hf
    obtain ⟨t, ht, rfl⟩ := hf
    exact (fields fd hfd).1.quote.sep (by decide) (Expr.coq_tidy (fields fd hfd).2 ht)
  refine cleanLines_join_newline fun x hx => Tidy.clean ?_
  simp only [List.mem_cons, List.mem_append, List.mem_map, List.mem_singleton, List.not_mem_nil,
    or_false] at hx
  rcases hx with rfl | ⟨y, hy, rfl⟩ | rfl | ⟨y, hy, rfl⟩ | hx
  · exact (Tidy.prepend (by decide) (by decide) name.tidy).append (by decide)
  · exact (comment.lines y hy).lineAt 2
  · decide
  · exact (Tidy.terminated (by decide) field y hy).lineAt 4
  · rcases hx with rfl | rfl | rfl | rfl | rfl | rfl | rfl | rfl
    any_goals decide
    exact (Tidy.prepend (by decide) (by decide) name.tidy).append (by decide)

theorem Decl.coqDecl_clean : ∀ {d : Decl} {s : List Char}, d.TidyLeaves → d.coqDecl = some s →
    cleanLines s
  | .funcDecl _, _, h, hs => FuncDecl.coqDecl_clean h hs
  | .structDecl _, _, h, hs => StructDecl.coqDecl_clean h hs
  | .typeDecl d, _, ⟨name, body⟩, hs => by
    rw [Decl.coqDecl, typeDecl_coqDecl_eq] at hs
    obtain ⟨b, hb, rfl⟩ := Option.map_eq_some'.mp hs
    exact (((Tidy.prepend (by decide) (by decide) name.tidy).sep (by decide)
      (Expr.coq_tidy body hb)).append (by decide)).clean
  | .constDecl d, _, ⟨name, comment, val⟩, hs => by
    rw [Decl.coqDecl, constDecl_coqDecl_eq] at hs
    obtain ⟨v, hv, rfl⟩ := Option.map_eq_some'.mp hs
    refine cleanLines_join_newline fun x hx => Tidy.clean ?_
    simp only [List.mem_append, List.mem_singleton] at hx
    rcases hx with hx | rfl
    · exact comment.lines x hx
    · exact Tidy.prepend (by decide) (by decide)
        (((name.tidy.sep (by decide) (Expr.coq_tidy val hv)).append (by decide)).shiftLines 11)
  | .commentDecl _, _, h, hs => by
    rw [Decl.coqDecl, commentDeclCoq_eq, Option.some_inj] at hs
    subst hs
    exact cleanLines_join_newline fun x hx => (h.lines x hx).clean

theorem cleanLines_println (x rest : List Char) :
    cleanLines (println x ++ rest) = (cleanLines x && cleanLines rest) := by
  rw [println, List.append_assoc, cleanLines_append]
  simp [cleanBefore_newline, cleanLines, cleanBefore, isBlank]

theorem cleanLines_println_self (x : List Char) : cleanLines (println x) = cleanLines x := by
  rw [← List.append_nil (println x), cleanLines_println]
  exact Bool.and_true _

theorem File.write_clean {f : File} {s : List Char} (pkg : Word f.goPackage)
    (decls : ∀ d ∈ f.decls, d.TidyLeaves) (hs : f.write = some s) : cleanLines s := by
  simp only [File.write, commentDeclCoq_eq, Option.bind_eq_bind, Option.bind_eq_some,
    Option.pure_def, Option.some.injEq] at hs
  obtain ⟨_, rfl, ds, hds, rfl⟩ := hs
  have notice : TidyComment f.autogeneratedNotice :=
    ⟨(cleanLines_iff _).mp (cleanLines_prepend (by decide) pkg.tidy), by simp [File.autogeneratedNotice]⟩
  have header : cleanLines (trimNewlines importHeader) := by decide
  simp only [List.append_assoc, cleanLines_println, Bool.and_eq_true]
  refine ⟨cleanLines_join_newline fun x hx => (notice.lines x hx).clean, header, rfl,
    cleanLines_join_newline ?_⟩
  simp only [List.mem_map]
  rintro _ ⟨x, hx, rfl⟩
  obtain ⟨d, hd, hdx⟩ := mem_of_mapM hds x hx
  rw [cleanLines_println_self]
  exact Decl.coqDecl_clean (decls d hd) hdx

/-- With tidy leaves and comments that do not start with a newline, no line of a declaration's
rendering or of the file ends in a space or a tab. -/
theorem write_has_no_trailing_blank :
    (∀ (d : Decl) (s : List Char), d.TidyLeaves → d.coqDecl = some s → NoTrailingBlank s) ∧
    ∀ (f : File) (s : List Char), Word f.goPackage → (∀ d ∈ f.decls, d.TidyLeaves) →
      f.write = some s → NoTrailingBlank s :=
  ⟨fun _ _ h hs => (cleanLines_iff _).mp (Decl.coqDecl_clean h hs),
    fun _ _ pkg decls hs => (cleanLines_iff _).mp (File.write_clean pkg decls hs)⟩

/-- `AddComment` puts the text right after `(* `: a comment that starts with a newline leaves
that blank at the end of the first line, though no line of the comment ends in a blank. -/
theorem leading_newline_comment_ends_in_blank :
    NoTrailingBlank "\nfoo".toList ∧
      (Decl.commentDecl "\nfoo".toList).coqDecl = some "(* \n   foo *)".toList ∧
      ¬NoTrailingBlank "(* \n   foo *)".toList := by
  decide

/-- A function with a two-line comment and a two-line string literal in a block. -/
def greetingDecl : Decl := .funcDecl ⟨"greeting".toList, [], .typeIdent "stringT".toList,
  .blockExpr [.mk ["s".toList] (.stringLiteral "Hello,\nworld".toList), .mk [] (.identExpr "s".toList)],
  "Greeting says hello\non two lines.".toList, true⟩

set_option maxRecDepth 4000 in
theorem greeting_has_no_trailing_blank :
    greetingDecl.TidyLeaves ∧
      greetingDecl.coqDecl = some "(* Greeting says hello\n   on two lines. *)\nDefinition greeting: val :=\n  λ: <>,\n    let: \"s\" := #(str\"Hello,\n    world\") in\n    \"s\".\nTheorem greeting_t: ⊢ greeting : (unitT -> stringT).\nProof. typecheck. Qed.\nHint Resolve greeting_t : types.".toList ∧
      NoTrailingBlank "(* Greeting says hello\n   on two lines. *)\nDefinition greeting: val :=\n  λ: <>,\n    let: \"s\" := #(str\"Hello,\n    world\") in\n    \"s\".\nTheorem greeting_t: ⊢ greeting : (unitT -> stringT).\nProof. typecheck. Qed.\nHint Resolve greeting_t : types.".toList ∧
      ∃ s, (File.mk "greeting".toList [greetingDecl]).write = some s ∧ NoTrailingBlank s := by
  have leaves : greetingDecl.TidyLeaves := by
    simp [greetingDecl, Decl.TidyLeaves, Expr.Every, TidyNode, NamesWords]
    decide
  have rendered : greetingDecl.coqDecl = some "(* Greeting says hello\n   on two lines. *)\nDefinition greeting: val :=\n  λ: <>,\n    let: \"s\" := #(str\"Hello,\n    world\") in\n    \"s\".\nTheorem greeting_t: ⊢ greeting : (unitT -> stringT).\nProof. typecheck. Qed.\nHint Resolve greeting_t : types.".toList := by
    decide
  have written : (File.mk "greeting".toList [greetingDecl]).write.isSome := by decide
  exact ⟨leaves, rendered, write_has_no_trailing_blank.1 _ _ leaves rendered, _,
    Option.eq_some_of_isSome written, write_has_no_trailing_blank.2 _ _ (by decide)
      (by simpa using leaves) (Option.eq_some_of_isSome written)⟩

end Goose.Coq
