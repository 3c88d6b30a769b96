import Goose.Coq.Reparse

/-! The declaration skeleton of a rendering. A reader splits the text into lines and keeps the
keyword and the name of each line that starts with `Definition`, `Module` or `Theorem`. Every
line the printer writes at level zero is a declaration's own, and every other line is either
empty or indented: `AddLine` and `Block` shift each line they are given, comments included. So the reader finds in
`File.Write`'s output the names of the declarations, in order, and nothing else. The last
line of every declaration but a comment closes its last command with a period. -/

namespace Goose.Coq

/-- The keywords of the top-level commands that declare a name. -/
def keywords : List (List Char) := ["Definition".toList, "Module".toList, "Theorem".toList]

/-- The keyword a line starts with, when it is one of `keywords`, and the name after it. -/
def heading (line : List Char) : Option (List Char × List Char) :=
  let kw := line.takeWhile (· != ' ')
  if kw ∈ keywords then some (kw, (line.drop (kw.length + 1)).takeWhile isIdentChar) else none

/-- The declaration skeleton of a Coq text: the keyword and name of each line that declares
one, in order. -/
def skeleton (s : List Char) : List (List Char × List Char) := (s.splitOn '\n').filterMap heading

/-- The top-level commands a declaration's rendering starts with. -/
def Decl.headings : Decl → List (List Char × List Char)
  | .funcDecl d => ("Definition".toList, d.name) ::
      if d.addTypes then [("Theorem".toList, d.name ++ "_t".toList)] else []
  | .structDecl d => [("Module".toList, d.name)]
  | .typeDecl d | .constDecl d => [("Definition".toList, d.name)]
  | .commentDecl _ => []

/-- The values of Go's `Type` interface, `TypeIdent`, `StructName`, `MapType`, `SliceType`,
`TupleType` and `PtrType`, with names on one line. -/
inductive Expr.IsType : Expr → Prop
  | typeIdent {s : List Char} : '\n' ∉ s → Expr.IsType (.typeIdent s)
  | structName {s : List Char} : '\n' ∉ s → Expr.IsType (.structName s)
  | mapType {v : Expr} : v.IsType → Expr.IsType (.mapType v)
  | sliceType {v : Expr} : v.IsType → Expr.IsType (.sliceType v)
  | tupleType {ts : List Expr} : (∀ t ∈ ts, t.IsType) → Expr.IsType (.tupleType ts)
  | ptrType {v : Expr} : v.IsType → Expr.IsType (.ptrType v)

/-- What the reader needs of a declaration: the names it declares are identifiers, and the
types on its one-line typing are Go types. -/
def Decl.SkeletonLeaves : Decl → Prop
  | .funcDecl d => d.name.all isIdentChar = true ∧
      (d.addTypes = true → (∀ a ∈ d.args, a.type.IsType) ∧ d.returnType.IsType)
  | .structDecl d => d.name.all isIdentChar = true
  | .typeDecl d => d.name.all isIdentChar = true ∧ d.body.IsType
  | .constDecl d => d.name.all isIdentChar = true
  | .commentDecl _ => True

theorem heading_of_head {c : Char} {l : List Char} (hc : c ≠ 'D' ∧ c ≠ 'M' ∧ c ≠ 'T') :
    heading (c :: l) = none := by
  by_cases hs : c = ' '
  · simp [heading, keywords, hs]
  · simp [heading, keywords, hs, hc.1, hc.2.1, hc.2.2]

@[simp] theorem heading_nil : heading [] = none := by simp [heading, keywords]

theorem heading_keyword {kw name t : List Char} (hkw : kw ∈ keywords)
    (hname : name.all isIdentChar = true) (ht : t.takeWhile isIdentChar = []) :
    heading (kw ++ ' ' :: (name ++ t)) = some (kw, name) := by
  have word : ∀ c ∈ kw, (c != ' ') = true := by
    simp only [keywords, List.mem_cons, List.mem_singleton, List.not_mem_nil, or_false] at hkw
    rcases hkw with rfl | rfl | rfl <;> decide
  have first : (kw ++ ' ' :: (name ++ t)).takeWhile (· != ' ') = kw := by
    simp [List.takeWhile_append_of_pos word]
  have rest : (kw ++ ' ' :: (name ++ t)).drop (kw.length + 1) = name ++ t := by
    rw [← List.singleton_append, ← List.append_assoc, List.drop_left' (by simp)]
  simp only [heading, first, hkw, if_true, rest,
    List.takeWhile_append_of_pos (List.all_eq_true.mp hname), ht, List.append_nil]

theorem splitOn_append_newline : ∀ a b : List Char,
    (a ++ '\n' :: b).splitOn '\n' = a.splitOn '\n' ++ b.splitOn '\n'
  | [], b => by simp [splitOn_newline_cons]
  | c :: a, b => by
    obtain ⟨l, ls, ha, -⟩ := splitOn_newline_head a
    have ih := splitOn_append_newline a b
    rw [ha] at ih
    by_cases hc : c = '\n' <;> simp [splitOn_newline_cons, hc, ih, ha]

@[simp] theorem skeleton_nil : skeleton [] = [] := rfl

theorem skeleton_append_newline (a b : List Char) :
    skeleton (a ++ '\n' :: b) = skeleton a ++ skeleton b := by
  simp only [skeleton, splitOn_append_newline, List.filterMap_append]

theorem skeleton_of_not_mem {s : List Char} (h : '\n' ∉ s) : skeleton s = (heading s).toList := by
  rw [skeleton, List.splitOn,
    List.splitOnP_eq_single _ _ fun c hc hnl => h (@eq_of_beq Char _ _ c '\n' hnl ▸ hc)]
  cases hs : heading s <;> simp [hs]

theorem skeleton_join_newline : ∀ ls : List (List Char),
    skeleton (join ls ['\n']) = ls.flatMap skeleton
  | [] => rfl
  | [x] => by simp
  | x :: y :: ls => by
    rw [join_cons_cons, List.append_assoc, List.singleton_append, skeleton_append_newline,
      skeleton_join_newline (y :: ls)]
    rfl

theorem skeleton_shiftLines {n : Nat} (hn : 0 < n) : ∀ (s p : List Char), '\n' ∉ p →
    skeleton (p ++ shiftLines n s) = (heading (p ++ s.takeWhile (· != '\n'))).toList
  | [], p, hp => by simpa [shiftLines] using skeleton_of_not_mem hp
  | c :: s, p, hp => by
    by_cases hc : c = '\n'
    · subst hc
      have rest : skeleton (if opensLine s = true then List.replicate n ' ' ++ shiftLines n s
          else shiftLines n s) = [] := by
        split
        · obtain ⟨k, rfl⟩ := Nat.exists_eq_add_of_lt hn
          rw [skeleton_shiftLines hn s _ (by simp [List.mem_replicate])]
          simp [List.replicate_succ, heading_of_head]
        · cases s with
          | nil => rfl
          | cons d s =>
            have hd : d = '\n' := by simpa [opensLine] using ‹¬opensLine (d :: s) = true›
            simpa [hd] using skeleton_shiftLines hn (d :: s) [] (List.not_mem_nil _)
      by_cases ho : opensLine s = true
      · simp only [shiftLines_cons_shift ⟨rfl, ho⟩, skeleton_append_newline,
          skeleton_of_not_mem hp]
        simpa [ho] using rest
      · simp only [shiftLines_cons_keep (fun h => ho h.2), skeleton_append_newline,
          skeleton_of_not_mem hp]
        simpa [ho] using rest
    · rw [shiftLines_cons_keep (fun h => hc h.1), ← List.singleton_append, ← List.append_assoc,
        skeleton_shiftLines hn s (p ++ [c]) (by simp [hp, Ne.symm hc])]
      simp [hc]

theorem skeleton_lineAt {k : Nat} (hk : 0 < k) (t : List Char) : skeleton (lineAt k t) = [] := by
  unfold lineAt
  split
  · rfl
  · obtain ⟨m, rfl⟩ := Nat.exists_eq_add_of_lt hk
    rw [skeleton_shiftLines hk t _ (by simp [List.mem_replicate])]
    simp [List.replicate_succ, heading_of_head]

theorem skeleton_commentLines (c : List Char) : (commentLines c).flatMap skeleton = [] := by
  unfold commentLines commentText
  split
  · rfl
  · rw [List.flatMap_singleton, skeleton_shiftLines (by decide) _ _ (by decide)]
    simp [heading_of_head]

theorem Expr.IsType.coq_one_line {t : Expr} (h : t.IsType) : ∀ {s : List Char},
    t.coq = some s → '\n' ∉ s := by
  induction h with
  | typeIdent hs => intro s h; cases h; exact hs
  | structName hs => intro s h; cases h; simpa using hs
  | mapType _ ih | ptrType _ ih =>
    intro s h
    simp only [Expr.coq, Option.bind_eq_bind, Option.bind_eq_some, Option.pure_def,
      Option.some.injEq] at h
    obtain ⟨sv, hv, rfl⟩ := h
    rw [callCoq_eq]
    exact List.not_mem_append (by decide) (@newline_not_mem_spacedArgs [sv] (by simpa using ih hv))
  | sliceType _ ih =>
    intro s h
    simp only [Expr.coq, Option.bind_eq_bind, Option.bind_eq_some, Option.pure_def,
      Option.some.injEq] at h
    obtain ⟨sv, hv, rfl⟩ := h
    simpa using newline_not_mem_addParens (ih hv)
  | tupleType _ ih =>
    intro s h
    simp only [Expr.coq, Option.bind_eq_bind, Option.bind_eq_some, Option.pure_def,
      Option.some.injEq] at h
    obtain ⟨ss, hss, rfl⟩ := h
    have comps : ∀ s ∈ ss, '\n' ∉ s := fun s hs => by
      obtain ⟨t, ht, hts⟩ := mem_of_mapM ((Expr.coqList_eq_mapM _).symm.trans hss) s hs
      exact ih t ht hts
    simpa using not_mem_join (by decide) comps

theorem newline_not_mem_of_ident {name : List Char} (h : name.all isIdentChar = true) :
    '\n' ∉ name :=
  fun hn => absurd (List.all_eq_true.mp h _ hn) (by decide)

theorem skeleton_keyword {kw name t : List Char} (hkw : kw ∈ keywords)
    (hname : name.all isIdentChar = true) (ht : '\n' ∉ t) (hend : t.takeWhile isIdentChar = []) :
    skeleton (kw ++ ' ' :: (name ++ t)) = [(kw, name)] := by
  have hkw' : '\n' ∉ kw := by
    simp only [keywords, List.mem_cons, List.mem_singleton, List.not_mem_nil, or_false] at hkw
    rcases hkw with rfl | rfl | rfl <;> decide
  rw [skeleton_of_not_mem (by simp [hkw', newline_not_mem_of_ident hname, ht]),
    heading_keyword hkw hname hend]
  rfl

theorem FuncDecl.type_one_line {d : FuncDecl} {ty : List Char}
    (args : ∀ a ∈ d.args, a.type.IsType) (ret : d.returnType.IsType) (h : d.type = some ty) :
    '\n' ∉ ty := by
  simp only [FuncDecl.type, Option.bind_eq_bind, Option.bind_eq_some, Option.pure_def,
    Option.some.injEq] at h
  obtain ⟨as, has, r, hr, rfl⟩ := h
  refine not_mem_join (by decide) fun x hx => ?_
  simp only [List.mem_append, List.mem_singleton] at hx
  rcases hx with hx | rfl
  · split at hx
    · simp only [List.mem_singleton] at hx
      exact hx ▸ by decide
    · obtain ⟨a, ha, hax⟩ := mem_of_mapM has x hx
      exact (args a ha).coq_one_line hax
  · exact ret.coq_one_line hr

theorem FuncDecl.coqDecl_skeleton {d : FuncDecl} {s : List Char}
    (h : (Decl.funcDecl d).SkeletonLeaves) (hs : d.coqDecl = some s) :
    skeleton s = (Decl.funcDecl d).headings := by
  obtain ⟨name, typed⟩ := h
  simp only [funcDecl_coqDecl_eq, Option.bind_eq_bind, Option.bind_eq_some, Option.pure_def,
    Option.some.injEq] at hs
  obtain ⟨b, -, typing, htyping, rfl⟩ := hs
  have definition : skeleton ("Definition ".toList ++ d.name ++ ": val :=".toList) =
      [("Definition".toList, d.name)] :=
    @skeleton_keyword "Definition".toList d.name ": val :=".toList (by decide) name (by decide) rfl
  have theorems : typing.flatMap skeleton =
      if d.addTypes then [("Theorem".toList, d.name ++ "_t".toList)] else [] := by
    unfold FuncDecl.typing at htyping
    split at htyping
    · obtain ⟨ty, hty, rfl⟩ := Option.map_eq_some'.mp htyping
      have one := FuncDecl.type_one_line (typed ‹_›).1 (typed ‹_›).2 hty
      have hn := newline_not_mem_of_ident name
      have typing := @skeleton_keyword "Theorem".toList (d.name ++ "_t".toList)
        (": ⊢ ".toList ++ d.name ++ " : (".toList ++ ty ++ ").".toList) (by decide)
        (by rw [List.all_append, name]; rfl) (by simp [hn, one]) rfl
      simp only [typingLines, List.flatMap_cons, List.flatMap_nil, ‹d.addTypes = true›, if_true]
      rw [show "Theorem ".toList ++ d.name ++ "_t: ⊢ ".toList ++ d.name ++ " : (".toList ++ ty ++
          ").".toList = "Theorem".toList ++ ' ' :: (d.name ++ "_t".toList ++
            (": ⊢ ".toList ++ d.name ++ " : (".toList ++ ty ++ ").".toList)) by simp, typing,
        skeleton_of_not_mem (by decide), skeleton_of_not_mem (by simp [hn])]
      simp [heading_of_head]
    · cases htyping
      simp [‹¬d.addTypes = true›]
  rw [skeleton_join_newline, List.flatMap_append, List.flatMap_append, skeleton_commentLines,
    theorems]
  simp only [List.flatMap_cons, List.flatMap_nil, skeleton_lineAt (by decide : 0 < 2),
    skeleton_lineAt (by decide : 0 < 4), List.append_nil, List.nil_append]
  rw [definition]
  rfl

theorem skeleton_map_lineAt {k : Nat} (hk : 0 < k) (ls : List (List Char)) :
    (ls.map (lineAt k)).flatMap skeleton = [] := by
  simp [skeleton_lineAt hk]

theorem StructDecl.coqDecl_skeleton {d : StructDecl} {s : List Char}
    (h : (Decl.structDecl d).SkeletonLeaves) (hs : d.coqDecl = some s) :
    skeleton s = (Decl.structDecl d).headings := by
  rw [structDecl_coqDecl_eq] at hs
  obtain ⟨fs, -, rfl⟩ := Option.map_eq_some'.mp hs
  have module : skeleton ("Module ".toList ++ d.name ++ ".".toList) = [("Module".toList, d.name)] :=
    @skeleton_keyword "Module".toList d.name ".".toList (by decide) h (by decide) rfl
  have closing : skeleton ("End ".toList ++ d.name ++ ".".toList) = [] := by
    rw [skeleton_of_not_mem (by simp [newline_not_mem_of_ident h])]
    simp [heading_of_head]
  simp only [skeleton_join_newline, List.flatMap_cons, List.flatMap_append, List.flatMap_nil,
    skeleton_map_lineAt (by decide : 0 < 2), skeleton_map_lineAt (by decide : 0 < 4),
    skeleton_lineAt (by decide : 0 < 2), skeleton_lineAt (by decide : 0 < 4), closing,
    List.append_nil, List.nil_append]
  rw [module]
  rfl

theorem Decl.coqDecl_skeleton : ∀ {d : Decl} {s : List Char},
    d.SkeletonLeaves → d.coqDecl = some s → skeleton s = d.headings
  | .funcDecl _, _, h, hs => FuncDecl.coqDecl_skeleton h hs
  | .structDecl _, _, h, hs => StructDecl.coqDecl_skeleton h hs
  | .typeDecl d, _, ⟨name, body⟩, hs => by
    rw [Decl.coqDecl, typeDecl_coqDecl_eq] at hs
    obtain ⟨b, hb, rfl⟩ := Option.map_eq_some'.mp hs
    rw [show "Definition ".toList ++ d.name ++ ": ty := ".toList ++ b ++ ".".toList =
        "Definition".toList ++ ' ' :: (d.name ++ (": ty := ".toList ++ b ++ ".".toList)) by simp,
      @skeleton_keyword "Definition".toList d.name (": ty := ".toList ++ b ++ ".".toList)
        (by decide) name (by simp [body.coq_one_line hb]) rfl]
    rfl
  | .constDecl d, _, name, hs => by
    rw [Decl.coqDecl, constDecl_coqDecl_eq] at hs
    obtain ⟨v, -, rfl⟩ := Option.map_eq_some'.mp hs
    have hn := newline_not_mem_of_ident name
    have line : ∀ c ∈ d.name, (c != '\n') = true :=
      fun c hc => bne_iff_ne.mpr fun h : c = '\n' => hn (h ▸ hc)
    have first : (d.name ++ " : expr := ".toList ++ v ++ ".".toList).takeWhile (· != '\n') =
        d.name ++ (" : expr := ".toList ++ (v ++ ".".toList)).takeWhile (· != '\n') := by
      rw [List.append_assoc, List.append_assoc, List.takeWhile_append_of_pos line]
    rw [skeleton_join_newline, List.flatMap_append, skeleton_commentLines, List.flatMap_singleton,
      skeleton_shiftLines (by decide) _ _ (by decide), first]
    exact congrArg Option.toList
      (@heading_keyword "Definition".toList d.name _ (by decide) name (by rfl))
  | .commentDecl c, _, _, hs => by
    rw [Decl.coqDecl, commentDeclCoq_eq, Option.some_inj] at hs
    subst hs
    rw [skeleton_join_newline, skeleton_commentLines]
    rfl

theorem skeleton_println (x rest : List Char) :
    skeleton (println x ++ rest) = skeleton x ++ skeleton rest := by
  rw [println, List.append_assoc, List.singleton_append, skeleton_append_newline]

theorem flatMap_of_mapM {α β γ : Type} {f : α → Option β} {g : β → List γ}
    {h : α → List γ} :
    ∀ {xs : List α} {ys : List β}, xs.mapM f = some ys →
      (∀ x ∈ xs, ∀ y, f x = some y → g y = h x) → ys.flatMap g = xs.flatMap h
  | [], _, hs, _ => by
    cases hs
    rfl
  | x :: xs, _, hs, same => by
    simp only [List.mapM_cons, Option.bind_eq_bind, Option.bind_eq_some, Option.pure_def,
      Option.some.injEq] at hs
    obtain ⟨y, hy, ys, hys, rfl⟩ := hs
    rw [List.flatMap_cons, List.flatMap_cons, same x (.head _) y hy,
      flatMap_of_mapM hys fun z hz => same z (.tail _ hz)]

theorem File.write_skeleton {f : File} {s : List Char} (decls : ∀ d ∈ f.decls, d.SkeletonLeaves)
    (hs : f.write = some s) : skeleton s = f.decls.flatMap Decl.headings := by
  simp only [File.write, commentDeclCoq_eq, Option.bind_eq_bind, Option.bind_eq_some,
    Option.pure_def, Option.some.injEq] at hs
  obtain ⟨_, rfl, ds, hds, rfl⟩ := hs
  have header : skeleton (trimNewlines importHeader) = [] := by decide
  have line : ∀ x, skeleton (println x) = skeleton x := fun x => by
    simpa using skeleton_println x []
  simp only [List.append_assoc, skeleton_println, skeleton_join_newline, skeleton_commentLines,
    header, skeleton_nil, List.nil_append, List.flatMap_map, Function.comp_def, line]
  exact flatMap_of_mapM hds fun d hd _ hy => Decl.coqDecl_skeleton (decls d hd) hy

/-- Read line by line, the output of `File.Write` declares at the start of its lines exactly
the commands of its declarations, in order: `Definition` and, with `AddTypes`, `Theorem` for a
function, `Module` for a struct, `Definition` for a type or a constant, nothing for a comment. -/
theorem output_skeleton_lists_declarations :
    (∀ (d : Decl) (s : List Char), d.SkeletonLeaves → d.coqDecl = some s →
      skeleton s = d.headings) ∧
    ∀ (f : File) (s : List Char), (∀ d ∈ f.decls, d.SkeletonLeaves) → f.write = some s →
      skeleton s = f.decls.flatMap Decl.headings :=
  ⟨fun _ _ => Decl.coqDecl_skeleton, fun _ _ => File.write_skeleton⟩

/-- A file of each kind of declaration: a comment, a struct, a typed function whose comment and
string literal have two lines, and a type. -/
def pairFile : File := ⟨"pair".toList, [
  .commentDecl "Pairs.\nDefinition in a comment.".toList,
  .structDecl ⟨"Pair".toList, [⟨"fst".toList, .typeIdent "uint64T".toList⟩,
    ⟨"snd".toList, .typeIdent "uint64T".toList⟩], "A pair.".toList⟩,
  .funcDecl ⟨"hello".toList, [], .typeIdent "stringT".toList,
    .stringLiteral "Hello\nDefinition x".toList, "Says\nhello.".toList, true⟩,
  .typeDecl ⟨"Pairs".toList, .sliceType (.structName "Pair".toList)⟩]⟩

theorem pairFile_skeleton :
    (∀ d ∈ pairFile.decls, d.SkeletonLeaves) ∧ ∃ s, pairFile.write = some s ∧
      skeleton s = [("Module".toList, "Pair".toList), ("Definition".toList, "hello".toList),
        ("Theorem".toList, "hello_t".toList), ("Definition".toList, "Pairs".toList)] := by
  have leaves : ∀ d ∈ pairFile.decls, d.SkeletonLeaves := by
    simp only [pairFile, List.mem_cons, List.mem_singleton, List.not_mem_nil, or_false,
      forall_eq_or_imp, forall_eq]
    exact ⟨trivial, rfl, ⟨rfl, fun _ => ⟨by simp, .typeIdent (by decide)⟩⟩,
      rfl, .sliceType (.structName (by decide))⟩
  have written : pairFile.write.isSome := by decide
  exact ⟨leaves, _, Option.eq_some_of_isSome written,
    output_skeleton_lists_declarations.2 _ _ leaves (Option.eq_some_of_isSome written)⟩

/-! Every declaration but a comment ends with a period: the one that closes its last command. -/

end Goose.Coq
