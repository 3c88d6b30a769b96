import Goose.Coq.Reparse

/-! String literals in a rendering. `StringLiteral.Coq` copies its value between `#(str"` and
`")`, and each block that embeds the rendering re-indents it after every newline that starts a
line, the literal's own newlines included. So a literal is found in the output re-indented by
the indentation `k` of its block, `literalText k v`, and unchanged only when its value has no
newline. -/

namespace Goose.Coq

mutual
/-- The values of the `StringLiteral` leaves of an expression. -/
def Expr.literals : Expr → List (List Char)
  | .stringLiteral v => [v]
  | .callExpr _ args => Expr.literalsList args
  | .structFieldAccessExpr _ _ x _ | .returnExpr x | .notExpr x | .derefExpr x | .refExpr x
  | .hashTableInsert x | .mapType x | .sliceType x | .ptrType x => x.literals
  | .structLiteral _ elts _ => FieldVal.literalsList elts
  | .binaryExpr x _ y | .storeStmt x y => x.literals ++ y.literals
  | .tupleExpr es | .tupleType es => Expr.literalsList es
  | .blockExpr bs | .spawnExpr bs => Binding.literalsList bs
  | .ifExpr c t e => c.literals ++ t.literals ++ e.literals
  | .forLoopExpr (.mk _ i) c p body =>
    i.literals ++ c.literals ++ p.literals ++ Binding.literalsList body
  | .mapIterExpr _ _ m body => m.literals ++ Binding.literalsList body
  | _ => []

def Expr.literalsList : List Expr → List (List Char)
  | [] => []
  | e :: es => e.literals ++ Expr.literalsList es

def Binding.literalsList : List Binding → List (List Char)
  | [] => []
  | .mk _ e :: bs => e.literals ++ Binding.literalsList bs

def FieldVal.literalsList : List FieldVal → List (List Char)
  | [] => []
  | .mk _ v :: fs => v.literals ++ FieldVal.literalsList fs
end

/-- `StringLiteral.Coq` of `v` inside a text re-indented by `k`. -/
def literalText (k : Nat) (v : List Char) : List Char :=
  "#(str\"".toList ++ shiftLines k (v ++ "\")".toList)

theorem literalText_zero (v : List Char) :
    literalText 0 v = "#(str\"".toList ++ v ++ "\")".toList := by
  simp [literalText]

theorem literalText_of_not_mem {v : List Char} (hv : '\n' ∉ v) (k : Nat) :
    literalText k v = "#(str\"".toList ++ v ++ "\")".toList := by
  rw [literalText, shiftLines_of_not_mem (by simpa using hv), List.append_assoc]

theorem literalText_eq (k : Nat) (v : List Char) :
    literalText k v = "#(str\"".toList ++ shiftLines k (v ++ ['"']) ++ [')'] := by
  rw [literalText, List.append_assoc, show "\")".toList = ['"'] ++ [')'] from rfl, ← List.append_assoc v,
    shiftLines_append _ (by simp)]
  rfl

theorem literalText_getLast (k : Nat) (v : List Char) : (literalText k v).getLast? = some ')' := by
  rw [literalText_eq, List.getLast?_concat]

theorem shiftLines_literalText (j k : Nat) (v : List Char) :
    shiftLines j (literalText k v) = literalText (j + k) v := by
  rw [literalText, shiftLines_append _ (by decide), shiftLines_shiftLines,
    shiftLines_of_not_mem (by decide)]
  rfl

theorem shiftLines_append_suffix (j : Nat) : ∀ x w : List Char,
    ∃ a, shiftLines j (x ++ w) = a ++ shiftLines j w
  | [], _ => ⟨[], rfl⟩
  | c :: x, w => by
    obtain ⟨a, ha⟩ := shiftLines_append_suffix j x w
    by_cases h : c = '\n' ∧ opensLine (x ++ w) = true
    · exact ⟨c :: (List.replicate j ' ' ++ a), by rw [List.cons_append, shiftLines_cons_shift h, ha]; simp⟩
    · exact ⟨c :: a, by rw [List.cons_append, shiftLines_cons_keep h, ha]; rfl⟩

theorem IsInfix.shiftLines {y t : List Char} (h : y <:+: t) (hy : y.getLast? ≠ some '\n')
    (j : Nat) : shiftLines j y <:+: shiftLines j t := by
  obtain ⟨x, z, rfl⟩ := h
  obtain ⟨a, ha⟩ := shiftLines_append_suffix j x (y ++ z)
  rw [List.append_assoc, ha, shiftLines_append z hy]
  exact List.infix_append' a _ _

theorem infix_join {x : List Char} (sep : List Char) :
    ∀ {xs : List (List Char)}, x ∈ xs → x <:+: join xs sep
  | [_], .head _ => by simp
  | _ :: _ :: _, .head _ => by
    rw [join_cons_cons, List.append_assoc]
    exact (List.prefix_append _ _).isInfix
  | y :: _ :: _, .tail _ hx => by
    rw [join_cons_cons]
    exact (infix_join sep hx).trans (List.suffix_append _ _).isInfix

/-- The literal of `v`, re-indented by some `k`, stands in `s`. -/
def HasLiteral (v s : List Char) : Prop := ∃ k, literalText k v <:+: s

theorem HasLiteral.mono {v s t : List Char} (h : HasLiteral v s) (hs : s <:+: t) : HasLiteral v t :=
  h.imp fun _ hk => hk.trans hs

theorem HasLiteral.shiftLines {v s : List Char} (h : HasLiteral v s) (j : Nat) :
    HasLiteral v (shiftLines j s) := by
  obtain ⟨k, hk⟩ := h
  refine ⟨j + k, ?_⟩
  rw [← shiftLines_literalText]
  exact IsInfix.shiftLines hk (by simp [literalText_getLast]) j

theorem HasLiteral.lineAt {v s : List Char} (h : HasLiteral v s) (k : Nat) :
    HasLiteral v (lineAt k s) := by
  have ne : s ≠ [] := by
    rintro rfl
    obtain ⟨_, hk⟩ := h
    simpa [literalText] using hk.length_le
  rw [Goose.Coq.lineAt, if_neg ne]
  exact (h.shiftLines k).mono (List.suffix_append _ _).isInfix

theorem HasLiteral.join {v x : List Char} {xs : List (List Char)} (h : HasLiteral v x) (hx : x ∈ xs)
    (sep : List Char) : HasLiteral v (Goose.Coq.join xs sep) :=
  h.mono (infix_join sep hx)

theorem HasLiteral.addParens {v s : List Char} (h : HasLiteral v s) : HasLiteral v (addParens s) := by
  rcases addParens_cases s with hp | hp <;> rw [hp]
  · exact h
  · exact h.mono (List.infix_cons (List.prefix_append _ _).isInfix)

theorem HasLiteral.callCoq {v s m : List Char} {args : List (List Char)} (h : HasLiteral v s)
    (hs : s ∈ args) : HasLiteral v (callCoq m args) :=
  h.addParens.join (List.mem_cons_of_mem _ (List.mem_map_of_mem _ hs)) _

theorem HasLiteral.binaryCoq {v x y s : List Char} {op : BinOp} (hxy : HasLiteral v x ∨ HasLiteral v y)
    (h : binaryCoq x op y = some s) : HasLiteral v s := by
  obtain ⟨b, -, rfl⟩ := binaryCoq_some h
  rcases hxy with hx | hy
  · exact hx.mono (by simpa only [List.append_assoc] using (List.prefix_append x _).isInfix)
  · exact hy.mono (List.suffix_append _ _).isInfix

theorem HasLiteral.bindingLine {v e t : List Char} {names : List (List Char)} (h : HasLiteral v e)
    (ht : bindingLine names e = some t) : HasLiteral v t := by
  match names, ht with
  | [], ht =>
    cases ht
    exact h.mono (List.prefix_append _ _).isInfix
  | [_], ht =>
    cases ht
    exact h.mono (List.infix_append _ _ _)
  | [_, _], ht =>
    cases ht
    exact h.mono (List.infix_append _ _ _)

theorem blockTexts_hasLiteral {v : List Char} :
    ∀ {rs : List (List (List Char) × List Char)} {ts : List (List Char)}, blockTexts rs = some ts →
      ∀ r ∈ rs, HasLiteral v r.2 → ∃ t ∈ ts, HasLiteral v t
  | [], _, _, _, hr, _ => absurd hr (List.not_mem_nil _)
  | [_], _, h, _, .head _, hv => by
    cases h
    exact ⟨_, .head _, hv⟩
  | (names, e) :: b :: bs, ts, h, r, hr, hv => by
    simp only [blockTexts, Option.bind_eq_bind, Option.bind_eq_some, Option.pure_def,
      Option.some.injEq] at h
    obtain ⟨t, ht, ts', hts', rfl⟩ := h
    rcases List.mem_cons.mp hr with rfl | hr
    · exact ⟨t, .head _, hv.bindingLine ht⟩
    · obtain ⟨t', ht', hv'⟩ := blockTexts_hasLiteral hts' r hr hv
      exact ⟨t', .tail _ ht', hv'⟩

theorem HasLiteral.blockCoq {v s : List Char} {rs : List (List (List Char) × List Char)}
    (hr : ∃ r ∈ rs, HasLiteral v r.2) (h : blockCoq rs = some s) : HasLiteral v s := by
  rw [blockCoq_eq] at h
  obtain ⟨ts, hts, rfl⟩ := Option.map_eq_some'.mp h
  obtain ⟨r, hr, hv⟩ := hr
  obtain ⟨t, ht, hvt⟩ := blockTexts_hasLiteral hts r hr hv
  exact hvt.join ht _

theorem HasLiteral.branchLines {v code : List Char} (h : HasLiteral v code) (k : Nat)
    (pre : List Char) : ∃ x ∈ branchLines k pre code, HasLiteral v x := by
  unfold Goose.Coq.branchLines
  split
  · exact ⟨_, .head _, (h.mono (List.suffix_append _ _).isInfix).lineAt k⟩
  · exact ⟨_, .tail _ (.head _), h.lineAt (k + 2)⟩

theorem HasLiteral.terminated {v x : List Char} (h : HasLiteral v x) (sep : List Char) :
    ∀ {xs : List (List Char)}, x ∈ xs → ∃ y ∈ terminated sep xs, HasLiteral v y
  | [_], .head _ => ⟨x, .head _, h⟩
  | _ :: _ :: _, .head _ => ⟨_, .head _, h.mono (List.prefix_append _ _).isInfix⟩
  | _ :: _ :: _, .tail _ hx => by
    obtain ⟨y, hy, hv⟩ := HasLiteral.terminated h sep hx
    exact ⟨y, .tail _ hy, hv⟩

theorem structLiteralCoq_hasLiteral {v n s : List Char} {rs : List (List Char × List Char)}
    {alloc : Bool} (hr : ∃ r ∈ rs, HasLiteral v r.2) (h : structLiteralCoq n rs alloc = some s) :
    HasLiteral v s := by
  rw [structLiteralCoq_eq, Option.some_inj] at h
  subst h
  obtain ⟨⟨f, e⟩, hr, hv⟩ := hr
  obtain ⟨y, hy, hvy⟩ := (hv.mono (List.suffix_append _ _).isInfix).terminated ";".toList
    (List.mem_map_of_mem (fun (f, v) => quote f ++ " ::= ".toList ++ v) hr)
  exact (hvy.lineAt 2).join (.tail _ (List.mem_append_left _ (List.mem_map_of_mem _ hy))) _

mutual
theorem Expr.coq_hasLiteral : ∀ {e : Expr} {s : List Char}, e.coq = some s →
    ∀ v ∈ e.literals, HasLiteral v s
  | .stringLiteral _, _, hs, v, hv => by
    cases hs
    obtain rfl := List.mem_singleton.mp hv
    exact ⟨0, by rw [literalText_zero]⟩
  | .callExpr _ args, s, hs, v, hv => by
    simp only [Expr.coq, Option.bind_eq_bind, Option.bind_eq_some, Option.pure_def,
      Option.some.injEq] at hs
    obtain ⟨ss, hss, rfl⟩ := hs
    obtain ⟨s, hs, hvs⟩ := Expr.coqList_hasLiteral hss v hv
    exact hvs.callCoq hs
  | .structFieldAccessExpr _ _ x tp, s, hs, v, hv => by
    simp only [Expr.coq, Option.bind_eq_bind, Option.bind_eq_some, Option.pure_def,
      Option.some.injEq] at hs
    obtain ⟨sx, hx, rfl⟩ := hs
    have hvx := Expr.coq_hasLiteral hx v hv
    cases tp
    · exact hvx.callCoq (.tail _ (.head _))
    · exact hvx.callCoq (.tail _ (.tail _ (.head _)))
  | .returnExpr x, _, hs, v, hv => @Expr.coq_hasLiteral x _ hs v hv
  | .structLiteral _ elts _, s, hs, v, hv => by
    simp only [Expr.coq, Option.bind_eq_bind, Option.bind_eq_some] at hs
    obtain ⟨rs, hrs, hs⟩ := hs
    exact structLiteralCoq_hasLiteral (FieldVal.coqList_hasLiteral hrs v hv) hs
  | .binaryExpr x _ y, s, hs, v, hv => by
    simp only [Expr.coq, Option.bind_eq_bind, Option.bind_eq_some] at hs
    obtain ⟨sx, hx, sy, hy, hs⟩ := hs
    exact HasLiteral.binaryCoq ((List.mem_append.mp hv).imp (Expr.coq_hasLiteral hx v) (Expr.coq_hasLiteral hy v)) hs
  | .notExpr x, s, hs, v, hv | .sliceType x, s, hs, v, hv => by
    simp only [Expr.coq, Option.bind_eq_bind, Option.bind_eq_some, Option.pure_def,
      Option.some.injEq] at hs
    obtain ⟨sx, hx, rfl⟩ := hs
    exact (Expr.coq_hasLiteral hx v hv).addParens.mono (List.suffix_append _ _).isInfix
  | .derefExpr x, s, hs, v, hv => by
    simp only [Expr.coq, Option.bind_eq_bind, Option.bind_eq_some, Option.pure_def,
      Option.some.injEq] at hs
    obtain ⟨sx, hx, rfl⟩ := hs
    exact (Expr.coq_hasLiteral hx v hv).addParens.mono (List.suffix_cons _ _).isInfix
  | .hashTableInsert x, s, hs, v, hv => by
    simp only [Expr.coq, Option.bind_eq_bind, Option.bind_eq_some, Option.pure_def,
      Option.some.injEq] at hs
    obtain ⟨sx, hx, rfl⟩ := hs
    exact (Expr.coq_hasLiteral hx v hv).addParens.mono (List.infix_append _ _ _)
  | .refExpr x, s, hs, v, hv | .mapType x, s, hs, v, hv | .ptrType x, s, hs, v, hv => by
    simp only [Expr.coq, Option.bind_eq_bind, Option.bind_eq_some, Option.pure_def,
      Option.some.injEq] at hs
    obtain ⟨sx, hx, rfl⟩ := hs
    exact (Expr.coq_hasLiteral hx v hv).callCoq (.head _)
  | .storeStmt d x, s, hs, v, hv => by
    simp only [Expr.coq, Option.bind_eq_bind, Option.bind_eq_some, Option.pure_def,
      Option.some.injEq] at hs
    obtain ⟨sd, hd, sx, hx, rfl⟩ := hs
    rcases List.mem_append.mp hv with hv | hv
    · exact (Expr.coq_hasLiteral hd v hv).mono (by simpa only [List.append_assoc] using (List.prefix_append sd _).isInfix)
    · exact (Expr.coq_hasLiteral hx v hv).mono (List.suffix_append _ _).isInfix
  | .tupleExpr es, s, hs, v, hv => by
    simp only [Expr.coq, tupleCoq_eq, Option.bind_eq_bind, Option.bind_eq_some,
      Option.some.injEq] at hs
    obtain ⟨ss, hss, rfl⟩ := hs
    obtain ⟨s, hs, hvs⟩ := Expr.coqList_hasLiteral hss v hv
    exact ((hvs.join hs _).shiftLines 1).mono (List.infix_append _ _ _)
  | .tupleType ts, s, hs, v, hv => by
    simp only [Expr.coq, Option.bind_eq_bind, Option.bind_eq_some, Option.pure_def,
      Option.some.injEq] at hs
    obtain ⟨ss, hss, rfl⟩ := hs
    obtain ⟨s, hs, hvs⟩ := Expr.coqList_hasLiteral hss v hv
    exact (hvs.join hs _).mono (List.infix_append _ _ _)
  | .blockExpr bs, s, hs, v, hv => by
    simp only [Expr.coq, Option.bind_eq_bind, Option.bind_eq_some] at hs
    obtain ⟨rs, hrs, hs⟩ := hs
    exact HasLiteral.blockCoq (Binding.coqList_hasLiteral hrs v hv) hs
  | .ifExpr c t e, s, hs, v, hv => by
    simp only [Expr.coq, ifExprCoq_eq, Option.bind_eq_bind, Option.bind_eq_some,
      Option.some.injEq] at hs
    obtain ⟨sc, hc, st, ht, se, he, rfl⟩ := hs
    change v ∈ c.literals ++ t.literals ++ e.literals at hv
    simp only [List.mem_append] at hv
    rcases hv with (hv | hv) | hv
    · exact ((Expr.coq_hasLiteral hc v hv).mono (List.suffix_append _ _).isInfix).join (.head _) _
    · obtain ⟨x, hx, hvx⟩ := (Expr.coq_hasLiteral ht v hv).branchLines 0 "then".toList
      exact hvx.join (.tail _ (List.mem_append_left _ hx)) _
    · obtain ⟨x, hx, hvx⟩ := ((Expr.coq_hasLiteral he v hv).mono
        (List.prefix_append _ _).isInfix).branchLines 0 "else".toList
      exact hvx.join (.tail _ (List.mem_append_right _ hx)) _
  | .forLoopExpr (.mk names i) c p body, s, hs, v, hv => by
    simp only [Expr.coq, Binding.coq, forLoopCoq_eq, Option.bind_eq_bind, Option.bind_eq_some,
      Option.pure_def, Option.some.injEq, Option.map_eq_some'] at hs
    obtain ⟨_, ⟨si, hi, rfl⟩, sc, hc, sp, hp, rs, hrs, sb, hb, t, ht, rfl⟩ := hs
    change v ∈ i.literals ++ c.literals ++ p.literals ++ Binding.literalsList body at hv
    simp only [List.mem_append] at hv
    rcases hv with ((hv | hv) | hv) | hv
    · exact ((Expr.coq_hasLiteral hi v hv).bindingLine ht).join (.head _) _
    · exact ((Expr.coq_hasLiteral hc v hv).mono
        (by simpa only [List.append_assoc] using List.infix_append' _ _ _)).join (.tail _ (.head _)) _
    · exact ((Expr.coq_hasLiteral hp v hv).mono (List.infix_append _ _ _)).join (.tail _ (.head _)) _
    · exact (((HasLiteral.blockCoq (Binding.coqList_hasLiteral hrs v hv) hb).mono
        (List.prefix_append _ _).isInfix).lineAt 2).join (.tail _ (.tail _ (.head _))) _
  | .mapIterExpr _ _ m body, s, hs, v, hv => by
    simp only [Expr.coq, mapIterCoq_eq, Option.bind_eq_bind, Option.bind_eq_some,
      Option.some.injEq] at hs
    obtain ⟨sm, hm, rs, hrs, sb, hb, rfl⟩ := hs
    rcases List.mem_append.mp hv with hv | hv
    · exact ((Expr.coq_hasLiteral hm v hv).addParens.mono
        (by simpa only [List.append_assoc] using List.infix_append' _ _ _)).join (.head _) _
    · exact (((HasLiteral.blockCoq (Binding.coqList_hasLiteral hrs v hv) hb).mono
        (List.prefix_append _ _).isInfix).lineAt 2).join (.tail _ (.head _)) _
  | .spawnExpr body, s, hs, v, hv => by
    simp only [Expr.coq, spawnCoq_eq, Option.bind_eq_bind, Option.bind_eq_some,
      Option.some.injEq] at hs
    obtain ⟨rs, hrs, sb, hb, rfl⟩ := hs
    exact (((HasLiteral.blockCoq (Binding.coqList_hasLiteral hrs v hv) hb).mono
      (List.prefix_append _ _).isInfix).shiftLines 6).mono (List.suffix_append _ _).isInfix
  | .gallinaIdent _, _, _, _, hv | .identExpr _, _, _, _, hv | .gallinaString _, _, _, _, hv
  | .boolLiteral _, _, _, _, hv | .unitLiteral, _, _, _, hv | .intLiteral _, _, _, _, hv
  | .int32Literal _, _, _, _, hv | .typeIdent _, _, _, _, hv | .structName _, _, _, _, hv =>
    absurd hv (List.not_mem_nil _)

theorem Expr.coqList_hasLiteral : ∀ {es : List Expr} {ss : List (List Char)},
    Expr.coqList es = some ss → ∀ v ∈ Expr.literalsList es, ∃ s ∈ ss, HasLiteral v s
  | [], _, _, _, hv => absurd hv (List.not_mem_nil _)
  | e :: es, ss, hs, v, hv => by
    simp only [Expr.coqList, Option.bind_eq_bind, Option.bind_eq_some, Option.pure_def,
      Option.some.injEq] at hs
    obtain ⟨s, he, ss', hes, rfl⟩ := hs
    rw [Expr.literalsList, List.mem_append] at hv
    rcases hv with hv | hv
    · exact ⟨s, .head _, Expr.coq_hasLiteral he v hv⟩
    · obtain ⟨s', hs', hv'⟩ := Expr.coqList_hasLiteral hes v hv
      exact ⟨s', .tail _ hs', hv'⟩

theorem Binding.coqList_hasLiteral : ∀ {bs : List Binding} {rs : List (List (List Char) × List Char)},
    Binding.coqList bs = some rs → ∀ v ∈ Binding.literalsList bs, ∃ r ∈ rs, HasLiteral v r.2
  | [], _, _, _, hv => absurd hv (List.not_mem_nil _)
  | .mk names e :: bs, rs, hs, v, hv => by
    simp only [Binding.coqList, Binding.coq, Option.bind_eq_bind, Option.bind_eq_some,
      Option.pure_def, Option.some.injEq] at hs
    obtain ⟨_, ⟨s, he, rfl⟩, rs', hbs, rfl⟩ := hs
    rw [Binding.literalsList, List.mem_append] at hv
    rcases hv with hv | hv
    · exact ⟨_, .head _, Expr.coq_hasLiteral he v hv⟩
    · obtain ⟨r, hr, hv'⟩ := Binding.coqList_hasLiteral hbs v hv
      exact ⟨r, .tail _ hr, hv'⟩

theorem FieldVal.coqList_hasLiteral : ∀ {fs : List FieldVal} {rs : List (List Char × List Char)},
    FieldVal.coqList fs = some rs → ∀ v ∈ FieldVal.literalsList fs, ∃ r ∈ rs, HasLiteral v r.2
  | [], _, _, _, hv => absurd hv (List.not_mem_nil _)
  | .mk f e :: fs, rs, hs, v, hv => by
    simp only [FieldVal.coqList, Option.bind_eq_bind, Option.bind_eq_some, Option.pure_def,
      Option.some.injEq] at hs
    obtain ⟨s, he, rs', hfs, rfl⟩ := hs
    rw [FieldVal.literalsList, List.mem_append] at hv
    rcases hv with hv | hv
    · exact ⟨_, .head _, Expr.coq_hasLiteral he v hv⟩
    · obtain ⟨r, hr, hv'⟩ := FieldVal.coqList_hasLiteral hfs v hv
      exact ⟨r, .tail _ hr, hv'⟩
end

theorem FuncDecl.coqDecl_hasLiteral {d : FuncDecl} {s v : List Char} (hs : d.coqDecl = some s)
    (hv : v ∈ d.body.literals) : HasLiteral v s := by
  simp only [funcDecl_coqDecl_eq, Option.bind_eq_bind, Option.bind_eq_some, Option.pure_def,
    Option.some.injEq] at hs
  obtain ⟨b, hb, typing, -, rfl⟩ := hs
  exact (((Expr.coq_hasLiteral hb v hv).mono (List.prefix_append _ _).isInfix).lineAt 4).join
    (List.mem_append_left _ (List.mem_append_right _ (.tail _ (.tail _ (.head _))))) _

theorem ConstDecl.coqDecl_hasLiteral {d : ConstDecl} {s v : List Char} (hs : d.coqDecl = some s)
    (hv : v ∈ d.val.literals) : HasLiteral v s := by
  rw [constDecl_coqDecl_eq] at hs
  obtain ⟨e, he, rfl⟩ := Option.map_eq_some'.mp hs
  exact ((((Expr.coq_hasLiteral he v hv).mono (List.infix_append _ _ _)).shiftLines 11).mono
    (List.suffix_append _ _).isInfix).join (List.mem_append_right _ (.head _)) _

/-- A string literal of a function body or of a constant stands in the declaration re-indented
by the indentation of its block, and a value without a newline stands unchanged. -/
theorem decl_literal_reindented :
    (∀ (d : FuncDecl) (s v : List Char), d.coqDecl = some s → v ∈ d.body.literals →
      ∃ k, literalText k v <:+: s) ∧
    (∀ (d : ConstDecl) (s v : List Char), d.coqDecl = some s → v ∈ d.val.literals →
      ∃ k, literalText k v <:+: s) ∧
    ∀ (k : Nat) (v : List Char), '\n' ∉ v → literalText k v = "#(str\"".toList ++ v ++ "\")".toList :=
  ⟨fun _ _ _ => FuncDecl.coqDecl_hasLiteral, fun _ _ _ => ConstDecl.coqDecl_hasLiteral,
    fun k _ hv => literalText_of_not_mem hv k⟩

theorem literals_found_reindented :
    (∃ k, literalText k "x\ny".toList <:+:
      "Definition f: val :=\n  λ: <>,\n    #(str\"x\n    y\").".toList) ∧
    (∃ k, literalText k "a\n\nb".toList <:+:
      "Definition f: val :=\n  λ: <>,\n    #(str\"a\n\n    b\").".toList) ∧
    (∃ k, literalText k "a\nb".toList <:+:
      "Definition c : expr := #(str\"a\n           b\").".toList) ∧
    literalText 7 "ok".toList = "#(str\"ok\")".toList :=
  ⟨decl_literal_reindented.1 ⟨"f".toList, [], .typeIdent "stringT".toList,
      .stringLiteral "x\ny".toList, [], false⟩ _ _ (by decide) (by decide),
    decl_literal_reindented.1 ⟨"f".toList, [], .typeIdent "stringT".toList,
      .stringLiteral "a\n\nb".toList, [], false⟩ _ _ (by decide) (by decide),
    decl_literal_reindented.2.1 ⟨"c".toList, .stringLiteral "a\nb".toList, []⟩ _ _ (by decide)
      (by decide),
    decl_literal_reindented.2.2 7 _ (by decide)⟩

/-- The second line of a constant's two-line string value is indented with the `Definition `
block, so the literal with its value unchanged is not in the output. -/
theorem multiline_literal_not_verbatim :
    (ConstDecl.mk "c".toList (.stringLiteral "a\nb".toList) []).coqDecl =
        some "Definition c : expr := #(str\"a\n           b\").".toList ∧
      ¬"#(str\"a\nb\")".toList <:+: "Definition c : expr := #(str\"a\n           b\").".toList := by
  decide

end Goose.Coq
