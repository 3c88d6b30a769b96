import Goose.Coq.Layout

/-! The printer's panics. `Coq()` panics on an operator missing from `coqBinOp` and on a
binding of three or more names printed by `AddTo`; no buffer program reaches a negative
indentation level, since each starts at zero and the closed forms of `Goose.Coq.Layout`
exist. So every tree whose operators are declared and whose printed bindings have at most two
names renders, and no other tree does. -/

namespace Goose.Coq

def declaredOps : List BinOp :=
  [opPlus, opMinus, opEquals, opLessThan, opGreaterThan, opLessEq, opGreaterEq, opAppend, opMul]

/-- The bindings of a block that `AddTo` prints, all but the last, have at most two names. -/
def FewNames (bs : List Binding) : Prop := ∀ b ∈ bs.dropLast, b.names.length ≤ 2

/-- What `Coq()` asks of one node. -/
def PrintableNode : Expr → Prop
  | .binaryExpr _ op _ => op ∈ declaredOps
  | .blockExpr bs => FewNames bs
  | .forLoopExpr init _ _ body => init.names.length ≤ 2 ∧ FewNames body
  | .mapIterExpr _ _ _ body => FewNames body
  | .spawnExpr body => FewNames body
  | _ => True

def Expr.Printable (e : Expr) : Prop := e.Every PrintableNode

/-- Every expression of a declaration is printable. -/
def Decl.Printable : Decl → Prop
  | .funcDecl d => (∀ a ∈ d.args, a.type.Printable) ∧ d.returnType.Printable ∧ d.body.Printable
  | .structDecl d => ∀ fd ∈ d.fields, fd.type.Printable
  | .typeDecl d => d.body.Printable
  | .constDecl d => d.val.Printable
  | .commentDecl _ => True

theorem binaryCoq_isSome (x y : List Char) {op : BinOp} (h : op ∈ declaredOps) :
    (binaryCoq x op y).isSome := by
  simp only [declaredOps, List.mem_cons, List.mem_singleton, List.not_mem_nil, or_false] at h
  rcases h with rfl | rfl | rfl | rfl | rfl | rfl | rfl | rfl | rfl <;> rfl

theorem bindingLine_isSome {names : List (List Char)} (h : names.length ≤ 2) (e : List Char) :
    (bindingLine names e).isSome := by
  match names, h with
  | [], _ | [_], _ | [_, _], _ => rfl

theorem blockTexts_isSome : ∀ {rs : List (List (List Char) × List Char)},
    (∀ r ∈ rs.dropLast, r.1.length ≤ 2) → (blockTexts rs).isSome
  | [], _ | [_], _ => rfl
  | (names, e) :: b :: bs, h => by
    obtain ⟨t, ht⟩ := Option.isSome_iff_exists.mp (bindingLine_isSome (h (names, e) (by simp)) e)
    obtain ⟨ts, hts⟩ := Option.isSome_iff_exists.mp
      (@blockTexts_isSome (b :: bs) fun r hr => h r (by simp_all [List.dropLast_cons₂]))
    simp [blockTexts, ht, hts]

theorem blockCoq_isSome {bs : List Binding} {rs : List (List (List Char) × List Char)}
    (h : FewNames bs) (names : rs.map Prod.fst = bs.map Binding.names) : (blockCoq rs).isSome := by
  have few : ∀ r ∈ rs.dropLast, r.1.length ≤ 2 := by
    intro r hr
    have hmem : r.1 ∈ (bs.map Binding.names).dropLast := by
      rw [← names, ← List.map_dropLast]
      exact List.mem_map_of_mem _ hr
    rw [← List.map_dropLast] at hmem
    obtain ⟨b, hb, hnames⟩ := List.mem_map.mp hmem
    exact hnames ▸ h b hb
  obtain ⟨ts, hts⟩ := Option.isSome_iff_exists.mp (blockTexts_isSome few)
  simp [blockCoq_eq, hts]

theorem Binding.coqList_names : ∀ {bs : List Binding} {rs : List (List (List Char) × List Char)},
    Binding.coqList bs = some rs → rs.map Prod.fst = bs.map Binding.names
  | [], rs, h => by cases h; rfl
  | .mk names e :: bs, rs, h => by
    simp only [Binding.coqList, Binding.coq, Option.bind_eq_bind, Option.bind_eq_some,
      Option.pure_def, Option.some.injEq] at h
    obtain ⟨r, ⟨v, _, rfl⟩, rs', hrs, rfl⟩ := h
    simp [Binding.names, Binding.coqList_names hrs]

mutual
theorem Expr.coq_isSome : ∀ e : Expr, e.Printable → e.coq.isSome
  | .gallinaIdent _, _ | .identExpr _, _ | .gallinaString _, _ | .boolLiteral _, _ | .unitLiteral, _
  | .intLiteral _, _ | .int32Literal _, _ | .stringLiteral _, _ | .typeIdent _, _
  | .structName _, _ => rfl
  | .callExpr _ args, h => by
    obtain ⟨rs, hr⟩ := Option.isSome_iff_exists.mp (Expr.coqList_isSome args h.2)
    simp [Expr.coq, hr]
  | .structFieldAccessExpr _ _ x _, h | .notExpr x, h | .derefExpr x, h | .refExpr x, h
  | .hashTableInsert x, h | .mapType x, h | .sliceType x, h | .ptrType x, h => by
    obtain ⟨sx, hx⟩ := Option.isSome_iff_exists.mp (Expr.coq_isSome x h.2)
    simp [Expr.coq, hx]
  | .returnExpr v, h => Expr.coq_isSome v h.2
  | .structLiteral _ elts _, h => by
    obtain ⟨rs, hr⟩ := Option.isSome_iff_exists.mp (FieldVal.coqList_isSome elts h.2)
    simp [Expr.coq, hr, structLiteralCoq_eq]
  | .binaryExpr x _ y, h => by
    obtain ⟨sx, hx⟩ := Option.isSome_iff_exists.mp (Expr.coq_isSome x h.2.1)
    obtain ⟨sy, hy⟩ := Option.isSome_iff_exists.mp (Expr.coq_isSome y h.2.2)
    simp [Expr.coq, hx, hy, binaryCoq_isSome _ _ h.1]
  | .storeStmt x y, h => by
    obtain ⟨sx, hx⟩ := Option.isSome_iff_exists.mp (Expr.coq_isSome x h.2.1)
    obtain ⟨sy, hy⟩ := Option.isSome_iff_exists.mp (Expr.coq_isSome y h.2.2)
    simp [Expr.coq, hx, hy]
  | .tupleExpr es, h | .tupleType es, h => by
    obtain ⟨rs, hr⟩ := Option.isSome_iff_exists.mp (Expr.coqList_isSome es h.2)
    simp [Expr.coq, hr, tupleCoq_eq]
  | .blockExpr bs, h => by
    obtain ⟨rs, hr⟩ := Option.isSome_iff_exists.mp (Binding.coqList_isSome bs h.2)
    simpa [Expr.coq, hr] using blockCoq_isSome h.1 (Binding.coqList_names hr)
  | .ifExpr c t e, h => by
    obtain ⟨sc, hc⟩ := Option.isSome_iff_exists.mp (Expr.coq_isSome c h.2.1)
    obtain ⟨st, ht⟩ := Option.isSome_iff_exists.mp (Expr.coq_isSome t h.2.2.1)
    obtain ⟨se, he⟩ := Option.isSome_iff_exists.mp (Expr.coq_isSome e h.2.2.2)
    simp [Expr.coq, hc, ht, he, ifExprCoq_eq]
  | .forLoopExpr (.mk names i) c p body, h => by
    obtain ⟨si, hi⟩ := Option.isSome_iff_exists.mp (Expr.coq_isSome i h.2.1)
    obtain ⟨sc, hc⟩ := Option.isSome_iff_exists.mp (Expr.coq_isSome c h.2.2.1)
    obtain ⟨sp, hp⟩ := Option.isSome_iff_exists.mp (Expr.coq_isSome p h.2.2.2.1)
    obtain ⟨rs, hr⟩ := Option.isSome_iff_exists.mp (Binding.coqList_isSome body h.2.2.2.2)
    obtain ⟨sb, hb⟩ := Option.isSome_iff_exists.mp
      (blockCoq_isSome h.1.2 (Binding.coqList_names hr))
    simpa [Expr.coq, Binding.coq, hi, hc, hp, hr, hb, forLoopCoq_eq] using bindingLine_isSome h.1.1 si
  | .mapIterExpr _ _ m body, h => by
    obtain ⟨sm, hm⟩ := Option.isSome_iff_exists.mp (Expr.coq_isSome m h.2.1)
    obtain ⟨rs, hr⟩ := Option.isSome_iff_exists.mp (Binding.coqList_isSome body h.2.2)
    obtain ⟨sb, hb⟩ := Option.isSome_iff_exists.mp (blockCoq_isSome h.1 (Binding.coqList_names hr))
    simp [Expr.coq, hm, hr, hb, mapIterCoq_eq]
  | .spawnExpr body, h => by
    obtain ⟨rs, hr⟩ := Option.isSome_iff_exists.mp (Binding.coqList_isSome body h.2)
    obtain ⟨sb, hb⟩ := Option.isSome_iff_exists.mp (blockCoq_isSome h.1 (Binding.coqList_names hr))
    simp [Expr.coq, hr, hb, spawnCoq_eq]

theorem Expr.coqList_isSome : ∀ es : List Expr, Expr.EveryList PrintableNode es →
    (Expr.coqList es).isSome
  | [], _ => rfl
  | e :: es, h => by
    obtain ⟨s, hs⟩ := Option.isSome_iff_exists.mp (Expr.coq_isSome e h.1)
    obtain ⟨rs, hr⟩ := Option.isSome_iff_exists.mp (Expr.coqList_isSome es h.2)
    simp [Expr.coqList, hs, hr]

theorem Binding.coqList_isSome : ∀ bs : List Binding, Binding.EveryList PrintableNode bs →
    (Binding.coqList bs).isSome
  | [], _ => rfl
  | .mk _ e :: bs, h => by
    obtain ⟨s, hs⟩ := Option.isSome_iff_exists.mp (Expr.coq_isSome e h.1)
    obtain ⟨rs, hr⟩ := Option.isSome_iff_exists.mp (Binding.coqList_isSome bs h.2)
    simp [Binding.coqList, Binding.coq, hs, hr]

theorem FieldVal.coqList_isSome : ∀ fs : List FieldVal, FieldVal.EveryList PrintableNode fs →
    (FieldVal.coqList fs).isSome
  | [], _ => rfl
  | .mk _ v :: fs, h => by
    obtain ⟨s, hs⟩ := Option.isSome_iff_exists.mp (Expr.coq_isSome v h.1)
    obtain ⟨rs, hr⟩ := Option.isSome_iff_exists.mp (FieldVal.coqList_isSome fs h.2)
    simp [FieldVal.coqList, hs, hr]
end

theorem mapM_isSome {α β : Type} (f : α → Option β) : ∀ {xs : List α},
    (∀ x ∈ xs, (f x).isSome) → (xs.mapM f).isSome
  | [], _ => rfl
  | x :: xs, h => by
    obtain ⟨y, hy⟩ := Option.isSome_iff_exists.mp (h x (by simp))
    obtain ⟨ys, hys⟩ := Option.isSome_iff_exists.mp
      (@mapM_isSome α β f xs fun x hx => h x (by simp [hx]))
    simp only [List.mapM_cons, hy, hys]
    rfl

theorem Expr.coqList_eq_mapM : ∀ es : List Expr, Expr.coqList es = es.mapM Expr.coq
  | [] => rfl
  | e :: es => by rw [Expr.coqList, List.mapM_cons, Expr.coqList_eq_mapM es]

theorem mem_of_mapM {α β : Type} {f : α → Option β} : ∀ {xs : List α} {ys : List β},
    xs.mapM f = some ys → ∀ y ∈ ys, ∃ x ∈ xs, f x = some y
  | [], _, h => by
    cases h
    simp
  | x :: xs, _, h => by
    simp only [List.mapM_cons, Option.bind_eq_bind, Option.bind_eq_some, Option.pure_def,
      Option.some.injEq] at h
    obtain ⟨y, hy, ys, hys, rfl⟩ := h
    intro z hz
    rcases List.mem_cons.mp hz with rfl | hz
    · exact ⟨x, List.mem_cons_self x xs, hy⟩
    · obtain ⟨w, hw, hfw⟩ := mem_of_mapM hys z hz
      exact ⟨w, List.mem_cons_of_mem x hw, hfw⟩

theorem FuncDecl.type_isSome {d : FuncDecl} (args : ∀ a ∈ d.args, a.type.Printable)
    (ret : d.returnType.Printable) : d.type.isSome := by
  obtain ⟨as, has⟩ := Option.isSome_iff_exists.mp
    (mapM_isSome (fun a : FieldDecl => a.type.coq) fun a ha => Expr.coq_isSome _ (args a ha))
  obtain ⟨r, hr⟩ := Option.isSome_iff_exists.mp (Expr.coq_isSome _ ret)
  simp only [FuncDecl.type, has, hr]
  rfl

theorem Decl.coqDecl_isSome : ∀ d : Decl, d.Printable → d.coqDecl.isSome
  | .funcDecl d, ⟨args, ret, body⟩ => by
    obtain ⟨b, hb⟩ := Option.isSome_iff_exists.mp (Expr.coq_isSome _ body)
    obtain ⟨ty, hty⟩ := Option.isSome_iff_exists.mp (FuncDecl.type_isSome args ret)
    cases h : d.addTypes <;> simp [Decl.coqDecl, funcDecl_coqDecl_eq, FuncDecl.typing, hb, hty, h]
  | .structDecl d, fields => by
    obtain ⟨fs, hfs⟩ := Option.isSome_iff_exists.mp (mapM_isSome FieldDecl.coqField fun fd hfd => by
      obtain ⟨t, ht⟩ := Option.isSome_iff_exists.mp (Expr.coq_isSome _ (fields fd hfd))
      simp [FieldDecl.coqField, ht])
    simp only [Decl.coqDecl, structDecl_coqDecl_eq, hfs]
    rfl
  | .typeDecl d, body => by
    obtain ⟨b, hb⟩ := Option.isSome_iff_exists.mp (Expr.coq_isSome _ body)
    simp [Decl.coqDecl, typeDecl_coqDecl_eq, hb]
  | .constDecl d, val => by
    obtain ⟨v, hv⟩ := Option.isSome_iff_exists.mp (Expr.coq_isSome _ val)
    simp [Decl.coqDecl, constDecl_coqDecl_eq, hv]
  | .commentDecl _, _ => by simp [Decl.coqDecl, commentDeclCoq_eq]

/-- `Coq()` returns on every tree, and `CoqDecl()` on every declaration, whose operators are
declared and whose bindings printed by `AddTo` have at most two names. -/
theorem coq_returns_without_panic :
    (∀ e : Expr, e.Printable → e.coq.isSome) ∧ ∀ d : Decl, d.Printable → d.coqDecl.isSome :=
  ⟨Expr.coq_isSome, Decl.coqDecl_isSome⟩

/-- A function whose block destructures `Data.mapGet` and adds to the value. -/
def mapGetFunc : Decl :=
  .funcDecl ⟨"Get".toList, [⟨"m".toList, .mapType (.typeIdent "uint64T".toList)⟩],
    .typeIdent "uint64T".toList,
    .blockExpr [.mk ["x".toList, "ok".toList]
        (.callExpr "Data.mapGet".toList [.identExpr "m".toList, .intLiteral 1]),
      .mk [] (.binaryExpr (.identExpr "x".toList) opPlus (.intLiteral 1))],
    "Get reads one entry.".toList, true⟩

theorem mapGetFunc_returns : mapGetFunc.Printable ∧ mapGetFunc.coqDecl.isSome := by
  have printable : mapGetFunc.Printable := by
    simp [mapGetFunc, Decl.Printable, Expr.Printable, Expr.Every, PrintableNode, FewNames,
      declaredOps, Binding.names]
  exact ⟨printable, coq_returns_without_panic.2 _ printable⟩

theorem mem_keys_of_lookup {α β : Type} [BEq α] [LawfulBEq α] :
    ∀ {l : List (α × β)} {k : α} {b : β}, l.lookup k = some b → k ∈ l.map Prod.fst
  | [], _, _, h => by cases h
  | (a, _) :: l, k, b, h => by
    rw [List.lookup_cons] at h
    split at h
    · rename_i hk
      exact eq_of_beq hk ▸ List.mem_cons_self a _
    · exact List.mem_cons_of_mem a (mem_keys_of_lookup h)

theorem mem_declaredOps_of_binaryCoq {x y s : List Char} {op : BinOp}
    (h : binaryCoq x op y = some s) : op ∈ declaredOps := by
  have keys : ∀ k ∈ coqBinOp.map Prod.fst, k ∈ declaredOps := by decide
  unfold binaryCoq at h
  split at h
  · rename_i hb
    exact keys op (mem_keys_of_lookup hb)
  · cases h

theorem names_length_of_bindingLine {names : List (List Char)} {e t : List Char}
    (h : bindingLine names e = some t) : names.length ≤ 2 := by
  match names, h with
  | [], _ | [_], _ | [_, _], _ => simp
  | _ :: _ :: _ :: _, h => cases h

theorem names_length_of_blockTexts : ∀ {rs : List (List (List Char) × List Char)}
    {ts : List (List Char)}, blockTexts rs = some ts → ∀ r ∈ rs.dropLast, r.1.length ≤ 2
  | [], _, _ | [_], _, _ => by simp
  | (names, e) :: b :: bs, _, h => by
    simp only [blockTexts, Option.bind_eq_bind, Option.bind_eq_some, Option.pure_def,
      Option.some.injEq] at h
    obtain ⟨t, ht, ts, hts, -⟩ := h
    intro r hr
    rcases List.mem_cons.mp (List.dropLast_cons₂ ▸ hr) with rfl | hr
    · exact names_length_of_bindingLine ht
    · exact names_length_of_blockTexts hts r hr

theorem FewNames.of_blockCoq {bs : List Binding} {rs : List (List (List Char) × List Char)}
    {s : List Char} (h : blockCoq rs = some s) (names : rs.map Prod.fst = bs.map Binding.names) :
    FewNames bs := by
  rw [blockCoq_eq] at h
  obtain ⟨ts, hts, -⟩ := Option.map_eq_some'.mp h
  intro b hb
  have hmem : b.names ∈ rs.dropLast.map Prod.fst := by
    rw [List.map_dropLast, names, ← List.map_dropLast]
    exact List.mem_map_of_mem _ hb
  obtain ⟨r, hr, hnames⟩ := List.mem_map.mp hmem
  exact hnames ▸ names_length_of_blockTexts hts r hr

theorem bind_pure_eq_some {α β : Type} {o : Option α} {f : α → β} {s : β}
    (h : (o >>= fun a => pure (f a)) = some s) : ∃ a, o = some a ∧ f a = s := by
  cases o <;> simp_all

mutual
theorem Expr.printable_of_coq : ∀ {e : Expr} {s : List Char}, e.coq = some s → e.Printable
  | .gallinaIdent _, _, _ | .identExpr _, _, _ | .gallinaString _, _, _ | .boolLiteral _, _, _
  | .unitLiteral, _, _ | .intLiteral _, _, _ | .int32Literal _, _, _ | .stringLiteral _, _, _
  | .typeIdent _, _, _ | .structName _, _, _ => ⟨trivial, trivial⟩
  | .callExpr _ es, _, hs | .tupleExpr es, _, hs | .tupleType es, _, hs => by
    obtain ⟨ss, hss, -⟩ := Option.bind_eq_some.mp hs
    exact ⟨trivial, Expr.coqList_printable hss⟩
  | .structFieldAccessExpr _ _ x _, _, hs | .notExpr x, _, hs | .derefExpr x, _, hs
  | .refExpr x, _, hs | .hashTableInsert x, _, hs | .mapType x, _, hs | .sliceType x, _, hs
  | .ptrType x, _, hs => by
    obtain ⟨sx, hx, -⟩ := Option.bind_eq_some.mp hs
    exact ⟨trivial, Expr.printable_of_coq hx⟩
  | .returnExpr x, s, hs => ⟨trivial, @Expr.printable_of_coq x s hs⟩
  | .structLiteral _ elts _, _, hs => by
    obtain ⟨rs, hrs, -⟩ := Option.bind_eq_some.mp hs
    exact ⟨trivial, FieldVal.coqList_printable hrs⟩
  | .binaryExpr x _ y, _, hs => by
    simp only [Expr.coq, Option.bind_eq_bind, Option.bind_eq_some] at hs
    obtain ⟨sx, hx, sy, hy, hb⟩ := hs
    exact ⟨mem_declaredOps_of_binaryCoq hb, Expr.printable_of_coq hx, Expr.printable_of_coq hy⟩
  | .storeStmt x y, _, hs => by
    simp only [Expr.coq, Option.bind_eq_bind, Option.bind_eq_some] at hs
    obtain ⟨sx, hx, sy, hy, -⟩ := hs
    exact ⟨trivial, Expr.printable_of_coq hx, Expr.printable_of_coq hy⟩
  | .ifExpr c t e, _, hs => by
    simp only [Expr.coq, Option.bind_eq_bind, Option.bind_eq_some] at hs
    obtain ⟨sc, hc, st, ht, se, he, -⟩ := hs
    exact ⟨trivial, Expr.printable_of_coq hc, Expr.printable_of_coq ht, Expr.printable_of_coq he⟩
  | .blockExpr bs, _, hs => by
    obtain ⟨rs, hrs, hb⟩ := Option.bind_eq_some.mp hs
    exact ⟨FewNames.of_blockCoq hb (Binding.coqList_names hrs), Binding.coqList_printable hrs⟩
  | .forLoopExpr (.mk names i) c p body, _, hs => by
    simp only [Expr.coq, Binding.coq, forLoopCoq_eq, Option.bind_eq_bind, Option.bind_eq_some,
      Option.pure_def, Option.some.injEq, Option.map_eq_some'] at hs
    obtain ⟨_, ⟨si, hi, rfl⟩, sc, hc, sp, hp, rs, hrs, sb, hb, t, ht, -⟩ := hs
    exact ⟨⟨names_length_of_bindingLine ht, FewNames.of_blockCoq hb (Binding.coqList_names hrs)⟩,
      Expr.printable_of_coq hi, Expr.printable_of_coq hc, Expr.printable_of_coq hp,
      Binding.coqList_printable hrs⟩
  | .mapIterExpr _ _ m body, _, hs => by
    simp only [Expr.coq, Option.bind_eq_bind, Option.bind_eq_some] at hs
    obtain ⟨sm, hm, rs, hrs, sb, hb, -⟩ := hs
    exact ⟨FewNames.of_blockCoq hb (Binding.coqList_names hrs), Expr.printable_of_coq hm,
      Binding.coqList_printable hrs⟩
  | .spawnExpr body, _, hs => by
    simp only [Expr.coq, Option.bind_eq_bind, Option.bind_eq_some] at hs
    obtain ⟨rs, hrs, sb, hb, -⟩ := hs
    exact ⟨FewNames.of_blockCoq hb (Binding.coqList_names hrs), Binding.coqList_printable hrs⟩

theorem Expr.coqList_printable : ∀ {es : List Expr} {ss : List (List Char)},
    Expr.coqList es = some ss → Expr.EveryList PrintableNode es
  | [], _, _ => trivial
  | _ :: _, _, hs => by
    simp only [Expr.coqList, Option.bind_eq_bind, Option.bind_eq_some] at hs
    obtain ⟨s, he, ss, hes, -⟩ := hs
    exact ⟨Expr.printable_of_coq he, Expr.coqList_printable hes⟩

theorem Binding.coqList_printable : ∀ {bs : List Binding}
    {rs : List (List (List Char) × List Char)},
    Binding.coqList bs = some rs → Binding.EveryList PrintableNode bs
  | [], _, _ => trivial
  | .mk _ _ :: _, _, hs => by
    simp only [Binding.coqList, Binding.coq, Option.bind_eq_bind, Option.bind_eq_some,
      Option.pure_def, Option.some.injEq] at hs
    obtain ⟨_, ⟨s, he, rfl⟩, rs, hbs, -⟩ := hs
    exact ⟨Expr.printable_of_coq he, Binding.coqList_printable hbs⟩

theorem FieldVal.coqList_printable : ∀ {fs : List FieldVal} {rs : List (List Char × List Char)},
    FieldVal.coqList fs = some rs → FieldVal.EveryList PrintableNode fs
  | [], _, _ => trivial
  | .mk _ _ :: _, _, hs => by
    simp only [FieldVal.coqList, Option.bind_eq_bind, Option.bind_eq_some] at hs
    obtain ⟨s, hv, rs, hfs, -⟩ := hs
    exact ⟨Expr.printable_of_coq hv, FieldVal.coqList_printable hfs⟩
end

/-- The expressions `CoqDecl()` prints are printable; a function prints its argument and return
types only with `AddTypes`. -/
def Decl.PrintedPrintable : Decl → Prop
  | .funcDecl d => d.body.Printable ∧
      (d.addTypes → (∀ a ∈ d.args, a.type.Printable) ∧ d.returnType.Printable)
  | .structDecl d => ∀ fd ∈ d.fields, fd.type.Printable
  | .typeDecl d => d.body.Printable
  | .constDecl d => d.val.Printable
  | .commentDecl _ => True

theorem isSome_of_mapM {α β : Type} {f : α → Option β} : ∀ {xs : List α} {ys : List β},
    xs.mapM f = some ys → ∀ x ∈ xs, (f x).isSome
  | [], _, _ => by simp
  | x :: xs, _, h => by
    simp only [List.mapM_cons, Option.bind_eq_bind, Option.bind_eq_some, Option.pure_def,
      Option.some.injEq] at h
    obtain ⟨y, hy, ys, hys, -⟩ := h
    intro z hz
    rcases List.mem_cons.mp hz with rfl | hz
    · simp [hy]
    · exact isSome_of_mapM hys z hz

theorem FuncDecl.printable_of_type {d : FuncDecl} {ty : List Char} (h : d.type = some ty) :
    (∀ a ∈ d.args, a.type.Printable) ∧ d.returnType.Printable := by
  simp only [FuncDecl.type, Option.bind_eq_bind, Option.bind_eq_some] at h
  obtain ⟨as, has, r, hr, -⟩ := h
  refine ⟨fun a ha => ?_, Expr.printable_of_coq hr⟩
  obtain ⟨t, ht⟩ := Option.isSome_iff_exists.mp (isSome_of_mapM has a ha)
  exact Expr.printable_of_coq ht

theorem Decl.printedPrintable_of_coqDecl :
    ∀ {d : Decl} {s : List Char}, d.coqDecl = some s → d.PrintedPrintable
  | .funcDecl d, _, hs => by
    simp only [Decl.coqDecl, funcDecl_coqDecl_eq, Option.bind_eq_bind, Option.bind_eq_some] at hs
    obtain ⟨b, hb, typing, htyping, -⟩ := hs
    refine ⟨Expr.printable_of_coq hb, fun typed => ?_⟩
    rw [FuncDecl.typing, if_pos typed] at htyping
    obtain ⟨ty, hty, -⟩ := Option.map_eq_some'.mp htyping
    exact FuncDecl.printable_of_type hty
  | .structDecl d, _, hs => by
    rw [Decl.coqDecl, structDecl_coqDecl_eq] at hs
    obtain ⟨fs, hfs, -⟩ := Option.map_eq_some'.mp hs
    intro fd hfd
    obtain ⟨f, hf⟩ := Option.isSome_iff_exists.mp (isSome_of_mapM hfs fd hfd)
    simp only [FieldDecl.coqField, Option.bind_eq_bind, Option.bind_eq_some] at hf
    obtain ⟨t, ht, -⟩ := hf
    exact Expr.printable_of_coq ht
  | .typeDecl d, _, hs => by
    rw [Decl.coqDecl, typeDecl_coqDecl_eq] at hs
    obtain ⟨b, hb, -⟩ := Option.map_eq_some'.mp hs
    exact Expr.printable_of_coq hb
  | .constDecl d, _, hs => by
    rw [Decl.coqDecl, constDecl_coqDecl_eq] at hs
    obtain ⟨v, hv, -⟩ := Option.map_eq_some'.mp hs
    exact Expr.printable_of_coq hv
  | .commentDecl _, _, _ => trivial

theorem Decl.coqDecl_isSome_of_printedPrintable :
    ∀ {d : Decl}, d.PrintedPrintable → d.coqDecl.isSome
  | .funcDecl d, ⟨body, types⟩ => by
    obtain ⟨b, hb⟩ := Option.isSome_iff_exists.mp (Expr.coq_isSome _ body)
    have typing : d.typing.isSome := by
      unfold FuncDecl.typing
      split
      · next typed => simpa using FuncDecl.type_isSome (types typed).1 (types typed).2
      · rfl
    obtain ⟨ls, hls⟩ := Option.isSome_iff_exists.mp typing
    simp [Decl.coqDecl, funcDecl_coqDecl_eq, hb, hls]
  | .structDecl _, h | .typeDecl _, h | .constDecl _, h | .commentDecl _, h =>
    Decl.coqDecl_isSome _ h

theorem Expr.coq_isSome_iff (e : Expr) : e.coq.isSome ↔ e.Printable :=
  ⟨fun h => (Option.isSome_iff_exists.mp h).elim fun _ => Expr.printable_of_coq, Expr.coq_isSome e⟩

theorem Decl.coqDecl_isSome_iff (d : Decl) : d.coqDecl.isSome ↔ d.PrintedPrintable :=
  ⟨fun h => (Option.isSome_iff_exists.mp h).elim fun _ => Decl.printedPrintable_of_coqDecl,
    Decl.coqDecl_isSome_of_printedPrintable⟩

theorem File.write_isSome_iff (f : File) :
    f.write.isSome ↔ ∀ d ∈ f.decls, d.PrintedPrintable := by
  obtain ⟨n, hn⟩ := Option.isSome_iff_exists.mp
    (by simp [commentDeclCoq_eq] : (commentDeclCoq f.autogeneratedNotice).isSome)
  constructor
  · intro h d hd
    obtain ⟨s, hs⟩ := Option.isSome_iff_exists.mp h
    simp only [File.write, hn, Option.bind_eq_bind, Option.some_bind, Option.bind_eq_some] at hs
    obtain ⟨ds, hds, -⟩ := hs
    exact (Decl.coqDecl_isSome_iff d).mp (isSome_of_mapM hds d hd)
  · intro h
    obtain ⟨ds, hds⟩ := Option.isSome_iff_exists.mp
      (mapM_isSome Decl.coqDecl fun d hd => (Decl.coqDecl_isSome_iff d).mpr (h d hd))
    rw [File.write, hn, hds]
    rfl

/-- `Coq()` panics exactly on a tree with an operator missing from the table or a binding of
three or more names that `AddTo` prints; `CoqDecl()` exactly when an expression it prints
does, a function's argument and return types only with `AddTypes`; and `File.Write` exactly
when the rendering of one of its declarations does. -/
theorem printer_panics_only_on_unprintable :
    (∀ e : Expr, e.coq.isSome ↔ e.Printable) ∧
    (∀ d : Decl, d.coqDecl.isSome ↔ d.PrintedPrintable) ∧
    ∀ f : File, f.write.isSome ↔ ∀ d ∈ f.decls, d.PrintedPrintable :=
  ⟨Expr.coq_isSome_iff, Decl.coqDecl_isSome_iff, File.write_isSome_iff⟩

/-- The last binding of a block is printed bare, so its names are not checked; the same three
names on a binding before it panic. -/
example : (Expr.blockExpr [⟨["a".toList, "b".toList, "c".toList], .unitLiteral⟩]).coq.isSome ∧
    (Expr.blockExpr [⟨["a".toList, "b".toList, "c".toList], .unitLiteral⟩,
      ⟨[], .unitLiteral⟩]).coq = none := by
  decide

end Goose.Coq
