import Goose.Coq.Reparse

/-! Reading rendered types back. `Coq()` writes a Go type as a name (a `StructName` with `.T`
appended), as `mapT`, `refT` or `slice.T` applied to one argument that `addParens` embeds, or as
a product in parentheses. A reader that takes a name ending in `.T` for a struct reads every
rendering back to the type that printed it, when the names are words of their own and no
product has exactly one component: `addParens` leaves the rendering of a product bare, so a
one-component product in an argument prints like its component in parentheses. -/

namespace Goose.Coq

/-- The characters of a type's name: identifier characters and the dot of `disk.blockT`. -/
def isTypeChar (c : Char) : Bool := c.isAlphanum || c == '_' || c == '.'

/-- The names `Coq()` writes in front of a type's argument. -/
def typeFunctors : List (List Char) := ["mapT".toList, "refT".toList, "slice.T".toList]

/-- A name where a type stands: `S.T` is the struct `S`, any other name a type identifier. -/
def typeName (w : List Char) : Expr :=
  if ".T".toList <:+ w then .structName (w.take (w.length - 2)) else .typeIdent w

/-- The type a functor name builds from its argument. -/
def typeFunctor (w : List Char) : Option (Expr → Expr) :=
  if w = "mapT".toList then some .mapType
  else if w = "refT".toList then some .ptrType
  else if w = "slice.T".toList then some .sliceType
  else none

/-- What parentheses in an argument stand for: around one component, that type; around any
other number, a product. -/
def unparen : List Expr → Expr
  | [t] => t
  | ts => .tupleType ts

mutual
/-- A type: a product in parentheses, a functor name applied to an argument after a space, or
a name. -/
def readType : Nat → List Char → Option (Expr × List Char)
  | 0, _ | _ + 1, [] => none
  | n + 1, c :: s =>
    if c = '(' then (readProduct n s).map fun (ts, r) => (.tupleType ts, r)
    else
      let (w, r) := (c :: s).span isTypeChar
      if w = [] then none
      else match typeFunctor w, r with
        | some f, ' ' :: r => (readArg n r).map fun (t, r) => (f t, r)
        | _, _ => some (typeName w, r)

/-- A type embedded by `addParens`: a name, or anything in parentheses. -/
def readArg : Nat → List Char → Option (Expr × List Char)
  | 0, _ | _ + 1, [] => none
  | n + 1, c :: s =>
    if c = '(' then (readProduct n s).map fun (ts, r) => (unparen ts, r)
    else
      let (w, r) := (c :: s).span isTypeChar
      if w = [] then none else some (typeName w, r)

/-- The components of a product after its `(`, to its `)`. -/
def readProduct : Nat → List Char → Option (List Expr × List Char)
  | 0, _ => none
  | n + 1, s => if s.head? = some ')' then some ([], s.tail) else readComponents n [] s

/-- Components, each followed by ` * ` or by the closing `)`. -/
def readComponents : Nat → List Expr → List Char → Option (List Expr × List Char)
  | 0, _, _ => none
  | n + 1, ts, s => do
    let (t, r) ← readType n s
    match r with
    | ')' :: r => return (ts ++ [t], r)
    | ' ' :: '*' :: ' ' :: r => readComponents n (ts ++ [t]) r
    | _ => none
end

/-- The types of `FuncDecl.Type`: types separated by ` -> `, up to a `)`. -/
def readArrows : Nat → List Char → Option (List Expr × List Char)
  | 0, _ => none
  | n + 1, s => do
    let (t, r) ← readType n s
    match r with
    | ')' :: r => return ([t], r)
    | ' ' :: '-' :: '>' :: ' ' :: r => do
      let (ts, r) ← readArrows n r
      return (t :: ts, r)
    | _ => none

/-- The types `FuncDecl.Type` lists: the argument types, `unitT` when there are none, then the
return type. -/
def FuncDecl.typeExprs (d : FuncDecl) : List Expr :=
  (if d.args.isEmpty then [.typeIdent "unitT".toList] else d.args.map (·.type)) ++ [d.returnType]

/-- A name that reads back as itself: a word of type characters that is no functor. -/
def TypeWord (w : List Char) : Prop := w ≠ [] ∧ (∀ c ∈ w, isTypeChar c) ∧ w ∉ typeFunctors

instance : DecidablePred TypeWord := fun w =>
  inferInstanceAs (Decidable (w ≠ [] ∧ (∀ c ∈ w, isTypeChar c) ∧ w ∉ typeFunctors))

/-- The types the reader reads back: names that are words, no type identifier ending in `.T`,
and no product of one component. -/
inductive Expr.ReadableType : Expr → Prop
  | typeIdent {s : List Char} : TypeWord s → ¬".T".toList <:+ s → Expr.ReadableType (.typeIdent s)
  | structName {s : List Char} : TypeWord (s ++ ".T".toList) → Expr.ReadableType (.structName s)
  | mapType {v : Expr} : v.ReadableType → Expr.ReadableType (.mapType v)
  | sliceType {v : Expr} : v.ReadableType → Expr.ReadableType (.sliceType v)
  | ptrType {v : Expr} : v.ReadableType → Expr.ReadableType (.ptrType v)
  | tupleType {ts : List Expr} : ts.length ≠ 1 → (∀ t ∈ ts, t.ReadableType) →
      Expr.ReadableType (.tupleType ts)

/-- What may follow a type where it stands: no character of a name. -/
def EndsType (r : List Char) : Prop := ∀ c ∈ r.head?, isTypeChar c = false

theorem EndsType.close (r : List Char) : EndsType (')' :: r) := fun _ h => by cases h; rfl

theorem EndsType.space (r : List Char) : EndsType (' ' :: r) := fun _ h => by cases h; rfl

/-- What the reader makes of `s`, the rendering of `t`, where a type stands and where
`addParens` embeds it. -/
structure TypeReads (t : Expr) (s : List Char) : Prop where
  head : ∃ c u, s = c :: u ∧ c ≠ ')'
  type : ∀ r, EndsType r → Eventually (readType · (s ++ r)) (some (t, r))
  arg : ∀ r, EndsType r → Eventually (readArg · (addParens s ++ r)) (some (t, r))

theorem typeFunctor_eq_none {w : List Char} (h : w ∉ typeFunctors) : typeFunctor w = none := by
  simp only [typeFunctors, List.mem_cons, List.mem_singleton, List.not_mem_nil, or_false,
    not_or] at h
  rw [typeFunctor, if_neg h.1, if_neg h.2.1, if_neg h.2.2]

theorem addParens_of_space_not_mem {s : List Char} (h : ' ' ∉ s) : addParens s = s := by
  simp [addParens, h]

theorem TypeWord.reads {w : List Char} (h : TypeWord w) : TypeReads (typeName w) w := by
  obtain ⟨nonempty, chars, notFunctor⟩ := h
  obtain ⟨c, u, rfl⟩ := List.exists_cons_of_ne_nil nonempty
  have open_ne : c ≠ '(' := fun hc => absurd (chars c (.head _)) (by rw [hc]; decide)
  have bare : addParens (c :: u) = c :: u :=
    addParens_of_space_not_mem fun hs => absurd (chars ' ' hs) (by decide)
  have word : ∀ r, EndsType r → (c :: (u ++ r)).span isTypeChar = (c :: u, r) :=
    fun r hr => span_append chars hr
  refine ⟨⟨c, u, rfl, fun hc => absurd (chars c (.head _)) (by rw [hc]; decide)⟩,
    fun r hr => .of_succ fun n => ?_, fun r hr => .of_succ fun n => ?_⟩
  · simp [-List.span_eq_take_drop, readType, open_ne, word r hr, typeFunctor_eq_none notFunctor]
  · rw [bare]
    simp [-List.span_eq_take_drop, readArg, open_ne, word r hr]

theorem typeName_of_not_suffix {s : List Char} (h : ¬".T".toList <:+ s) :
    typeName s = .typeIdent s := if_neg h

theorem typeName_struct (s : List Char) : typeName (s ++ ".T".toList) = .structName s := by
  rw [typeName, if_pos (List.suffix_append _ _), List.take_left' (by simp)]

theorem addParens_of_word_space {c : Char} {u : List Char} (hc : isTypeChar c) (hs : ' ' ∈ c :: u) :
    addParens (c :: u) = '(' :: (c :: u ++ [')']) := by
  refine (addParens_cases _).resolve_left (addParens_ne_self hs ⟨?_, ?_⟩) <;>
    rintro rfl <;> exact absurd hc (by decide)

theorem readType_paren {x r : List Char} {ts : List Expr}
    (h : Eventually (readProduct · x) (some (ts, r))) :
    Eventually (readType · ('(' :: x)) (some (.tupleType ts, r)) :=
  h.step fun n h => by simp [readType, h]

theorem readArg_paren {x r : List Char} {ts : List Expr}
    (h : Eventually (readProduct · x) (some (ts, r))) :
    Eventually (readArg · ('(' :: x)) (some (unparen ts, r)) :=
  h.step fun n h => by simp [readArg, h]

theorem readProduct_of_head {c : Char} {u : List Char} (hc : c ≠ ')')
    {res : Option (List Expr × List Char)} (h : Eventually (readComponents · [] (c :: u)) res) :
    Eventually (readProduct · (c :: u)) res :=
  h.step fun n h => by simp [readProduct, hc, h]

theorem readComponents_close {s r : List Char} {t : Expr}
    (h : Eventually (readType · (s ++ ')' :: r)) (some (t, ')' :: r))) (acc : List Expr) :
    Eventually (readComponents · acc (s ++ ')' :: r)) (some (acc ++ [t], r)) :=
  h.step fun n h => by rw [readComponents, h]; rfl

theorem TypeReads.functor {v : Expr} {sv w : List Char} {f : Expr → Expr}
    (hv : TypeReads v sv) (hw : typeFunctor w = some f) (chars : ∀ c ∈ w, isTypeChar c)
    (nonempty : w ≠ []) : TypeReads (f v) (w ++ ' ' :: addParens sv) := by
  obtain ⟨c, u, rfl⟩ := List.exists_cons_of_ne_nil nonempty
  have open_ne : c ≠ '(' := fun hc => absurd (chars c (.head _)) (by rw [hc]; decide)
  have close_ne : c ≠ ')' := fun hc => absurd (chars c (.head _)) (by rw [hc]; decide)
  have type : ∀ r, EndsType r →
      Eventually (readType · (c :: (u ++ ' ' :: (addParens sv ++ r)))) (some (f v, r)) :=
    fun r hr => (hv.arg r hr).step fun n h => by
      have word : (c :: (u ++ ' ' :: (addParens sv ++ r))).span isTypeChar =
          (c :: u, ' ' :: (addParens sv ++ r)) := span_append chars (EndsType.space _)
      simp [-List.span_eq_take_drop, readType, open_ne, word, hw, h]
  refine ⟨⟨c, _, rfl, close_ne⟩, fun r hr => by simpa using type r hr, fun r _ => ?_⟩
  rw [List.cons_append, addParens_of_word_space (chars c (.head _)) (by simp)]
  simpa using readArg_paren (readProduct_of_head close_ne
    (@readComponents_close (c :: (u ++ ' ' :: addParens sv)) r (f v)
      (by simpa using type (')' :: r) (.close r)) []))

theorem readComponents_join : ∀ {ts : List Expr} {ss : List (List Char)},
    List.Forall₂ TypeReads ts ss → ts ≠ [] → ∀ (acc : List Expr) (r : List Char),
      Eventually (readComponents · acc (join ss [' ', '*', ' '] ++ ')' :: r)) (some (acc ++ ts, r))
  | _, _, .nil, ne, _, _ => absurd rfl ne
  | _, _, .cons h .nil, _, acc, r => by
    simpa using readComponents_close (h.type (')' :: r) (.close r)) acc
  | t :: t' :: ts, _ :: s' :: ss, .cons h (.cons h' hs), _, acc, r =>
    (h.type (' ' :: '*' :: ' ' :: (join (s' :: ss) [' ', '*', ' '] ++ ')' :: r)) (.space _)).step₂
      (readComponents_join (.cons h' hs) (List.cons_ne_nil t' ts) (acc ++ [t]) r)
      fun n h1 h2 => by
        rw [join_cons_cons, List.append_assoc, List.append_assoc, readComponents]
        rw [List.cons_append, List.cons_append, List.cons_append, List.nil_append, h1]
        exact h2.trans (by simp)

theorem addParens_enclosed (x : List Char) :
    addParens ('(' :: (x ++ [')'])) = '(' :: (x ++ [')']) := by
  have enclosed : isWellBalanced ('(' :: (x ++ [')'])) "(".toList ")".toList = true := by
    simp only [isWellBalanced, Bool.and_eq_true, List.isPrefixOf_iff_prefix,
      List.isSuffixOf_iff_suffix]
    exact ⟨⟨x ++ [')'], rfl⟩, ⟨'(' :: x, rfl⟩⟩
  rw [addParens, if_pos (Or.inr (Or.inl enclosed))]

theorem unparen_of_length_ne_one : ∀ {ts : List Expr}, ts.length ≠ 1 → unparen ts = .tupleType ts
  | [], _ | _ :: _ :: _, _ => rfl
  | [_], h => absurd rfl h

theorem TypeReads.tuple {ts : List Expr} {ss : List (List Char)} (hlen : ts.length ≠ 1)
    (hts : List.Forall₂ TypeReads ts ss) :
    TypeReads (.tupleType ts) ('(' :: (join ss [' ', '*', ' '] ++ [')'])) := by
  have product : ∀ r, Eventually (readProduct · (join ss [' ', '*', ' '] ++ ')' :: r)) (some (ts, r)) := by
    intro r
    cases hts with
    | nil => exact .of_succ fun n => by simp [readProduct]
    | @cons t s ts' ss' ht hrest =>
      obtain ⟨c, u, rfl, hc⟩ := ht.head
      have components := readComponents_join (.cons ht hrest) (List.cons_ne_nil t ts') [] r
      rw [List.nil_append] at components
      cases ss' with
      | nil => simpa using readProduct_of_head hc (by simpa using components)
      | cons s' ss'' =>
        simpa [join_cons_cons] using readProduct_of_head hc (by simpa [join_cons_cons] using components)
  refine ⟨⟨'(', _, rfl, by decide⟩, fun r _ => by simpa using readType_paren (product r),
    fun r _ => ?_⟩
  rw [addParens_enclosed, ← unparen_of_length_ne_one hlen]
  simpa using readArg_paren (product r)

theorem mapM_coq_forall₂ {α : Type} {f : α → Expr} {P : Expr → List Char → Prop} :
    ∀ {xs : List α}, (∀ x ∈ xs, ∃ s, (f x).coq = some s ∧ P (f x) s) →
      ∃ ss, xs.mapM (fun x => (f x).coq) = some ss ∧ List.Forall₂ P (xs.map f) ss
  | [], _ => ⟨[], rfl, .nil⟩
  | x :: xs, h => by
    obtain ⟨s, hs, p⟩ := h x (.head _)
    obtain ⟨ss, hss, ps⟩ := mapM_coq_forall₂ fun y hy => h y (.tail _ hy)
    refine ⟨s :: ss, ?_, .cons p ps⟩
    simp only [List.mapM_cons, hs, hss]
    rfl

theorem Expr.ReadableType.reads {t : Expr} (h : t.ReadableType) :
    ∃ s, t.coq = some s ∧ TypeReads t s := by
  induction h with
  | typeIdent hw hs => exact ⟨_, rfl, typeName_of_not_suffix hs ▸ hw.reads⟩
  | structName hw => exact ⟨_, rfl, typeName_struct _ ▸ hw.reads⟩
  | mapType _ ih =>
    obtain ⟨sv, hv, rv⟩ := ih
    exact ⟨_, by simp [Expr.coq, hv, callCoq_eq],
      @TypeReads.functor _ sv "mapT".toList _ rv (by simp [typeFunctor]) (by decide) (by decide)⟩
  | ptrType _ ih =>
    obtain ⟨sv, hv, rv⟩ := ih
    exact ⟨_, by simp [Expr.coq, hv, callCoq_eq],
      @TypeReads.functor _ sv "refT".toList _ rv (by simp [typeFunctor]) (by decide) (by decide)⟩
  | sliceType _ ih =>
    obtain ⟨sv, hv, rv⟩ := ih
    exact ⟨_, by simp [Expr.coq, hv],
      @TypeReads.functor _ sv "slice.T".toList _ rv (by simp [typeFunctor]) (by decide) (by decide)⟩
  | @tupleType ts hlen _ ih =>
    obtain ⟨ss, hss, rs⟩ := @mapM_coq_forall₂ Expr id _ ts ih
    have rendered : ts.mapM Expr.coq = some ss := hss
    rw [List.map_id] at rs
    refine ⟨_, ?_, TypeReads.tuple hlen rs⟩
    rw [Expr.coq, Expr.coqList_eq_mapM, rendered]
    rfl

theorem readArrows_join : ∀ {ts : List Expr} {ss : List (List Char)},
    List.Forall₂ TypeReads ts ss → ts ≠ [] → ∀ r : List Char,
      Eventually (readArrows · (join ss [' ', '-', '>', ' '] ++ ')' :: r)) (some (ts, r))
  | _, _, .nil, ne, _ => absurd rfl ne
  | _, _, .cons h .nil, _, r =>
    (h.type (')' :: r) (.close r)).step fun n h1 => by rw [join_single, readArrows, h1]; rfl
  | t :: t' :: ts, _ :: s' :: ss, .cons h (.cons h' hs), _, r =>
    (h.type (' ' :: '-' :: '>' :: ' ' :: (join (s' :: ss) [' ', '-', '>', ' '] ++ ')' :: r))
      (.space _)).step₂ (readArrows_join (.cons h' hs) (List.cons_ne_nil t' ts) r)
      fun n h1 h2 => by
        rw [join_cons_cons, List.append_assoc, List.append_assoc, readArrows]
        rw [List.cons_append, List.cons_append, List.cons_append, List.cons_append, List.nil_append, h1]
        exact congrArg (· >>= fun p : List Expr × List Char => (pure (t :: p.1, p.2) : Option _)) h2

theorem unitT_reads : TypeReads (.typeIdent "unitT".toList) "unitT".toList := by
  simpa [typeName_of_not_suffix (by decide : ¬".T".toList <:+ "unitT".toList)] using
    (by decide : TypeWord "unitT".toList).reads

theorem FuncDecl.type_reads {d : FuncDecl} (args : ∀ a ∈ d.args, a.type.ReadableType)
    (ret : d.returnType.ReadableType) :
    ∃ s, d.type = some s ∧ ∀ r, Eventually (readArrows · (s ++ ')' :: r)) (some (d.typeExprs, r)) := by
  obtain ⟨as, has, ras⟩ := @mapM_coq_forall₂ FieldDecl FieldDecl.type _ d.args
    fun a ha => (args a ha).reads
  obtain ⟨sr, hsr, rr⟩ := ret.reads
  have listed : ∃ ss, d.type = some (join ss " -> ".toList) ∧
      List.Forall₂ TypeReads d.typeExprs ss := by
    refine ⟨(if d.args.isEmpty then ["unitT".toList] else as) ++ [sr], ?_, ?_⟩
    · rw [FuncDecl.type, has, hsr]
      rfl
    · unfold FuncDecl.typeExprs
      split
      · exact .cons unitT_reads (.cons rr .nil)
      · exact List.rel_append (by simpa using ras) (.cons rr .nil)
  obtain ⟨ss, hs, rs⟩ := listed
  exact ⟨_, hs, fun r => readArrows_join rs (by simp [FuncDecl.typeExprs]) r⟩

/-- Read back, the rendering of every readable type gives that type and nothing more, so two
readable types that print alike are equal; and the typing `FuncDecl.Type` writes reads back as
the argument types, `unitT` for none, and the return type. -/
theorem type_renderings_read_back :
    (∀ t : Expr, t.ReadableType → ∃ s, t.coq = some s ∧ Eventually (readType · s) (some (t, []))) ∧
    (∀ t₁ t₂ : Expr, t₁.ReadableType → t₂.ReadableType → t₁.coq = t₂.coq → t₁ = t₂) ∧
    ∀ d : FuncDecl, (∀ a ∈ d.args, a.type.ReadableType) → d.returnType.ReadableType →
      ∃ s, d.type = some s ∧ ∀ r, Eventually (readArrows · (s ++ ')' :: r)) (some (d.typeExprs, r)) := by
  have reads : ∀ t : Expr, t.ReadableType →
      ∃ s, t.coq = some s ∧ Eventually (readType · s) (some (t, [])) := fun t h => by
    obtain ⟨s, hs, r⟩ := h.reads
    exact ⟨s, hs, by simpa using r.type [] fun _ h => by cases h⟩
  refine ⟨reads, fun t₁ t₂ h₁ h₂ same => ?_, fun _ => FuncDecl.type_reads⟩
  obtain ⟨s₁, hs₁, r₁⟩ := reads t₁ h₁
  obtain ⟨s₂, hs₂, r₂⟩ := reads t₂ h₂
  rw [hs₁, hs₂, Option.some_inj] at same
  subst same
  simpa using r₁.unique r₂

/-- A map from numbers to slices of pairs of a number and an entry. -/
def entriesType : Expr :=
  .mapType (.sliceType (.tupleType [.typeIdent "uint64T".toList, .structName "Entry".toList]))

/-- A typed function from a number and a byte slice to a pointer to an entry. -/
def putFunc : FuncDecl := ⟨"Put".toList,
  [⟨"k".toList, .typeIdent "uint64T".toList⟩, ⟨"v".toList, .sliceType (.typeIdent "byteT".toList)⟩],
  .ptrType (.structName "Entry".toList), .unitLiteral, [], true⟩

theorem entries_and_put_types_read_back :
    Eventually (readType · "mapT (slice.T (uint64T * Entry.T))".toList) (some (entriesType, [])) ∧
    ∀ r, Eventually (readArrows · ("uint64T -> slice.T byteT -> refT Entry.T".toList ++ ')' :: r))
      (some ([.typeIdent "uint64T".toList, .sliceType (.typeIdent "byteT".toList),
        .ptrType (.structName "Entry".toList)], r)) := by
  have uint64 : (Expr.typeIdent "uint64T".toList).ReadableType := .typeIdent (by decide) (by decide)
  have entry : (Expr.structName "Entry".toList).ReadableType := .structName (by decide)
  have entries : entriesType.ReadableType := .mapType (.sliceType (.tupleType (by decide)
    (by simpa using And.intro uint64 entry)))
  have args : ∀ a ∈ putFunc.args, a.type.ReadableType := by
    simpa [putFunc] using And.intro uint64 (.sliceType (.typeIdent (by decide) (by decide)))
  obtain ⟨s, hs, hread⟩ := type_renderings_read_back.1 entriesType entries
  obtain ⟨t, ht, harrows⟩ := type_renderings_read_back.2.2 putFunc args (.ptrType entry)
  have rendered : entriesType.coq = some "mapT (slice.T (uint64T * Entry.T))".toList := by decide
  have typed : putFunc.type = some "uint64T -> slice.T byteT -> refT Entry.T".toList := by decide
  rw [rendered, Option.some_inj] at hs
  rw [typed, Option.some_inj] at ht
  exact ⟨hs ▸ hread, ht ▸ harrows⟩

/-- A one-component product in an argument prints like its component in parentheses. -/
example : (Expr.sliceType (.mapType (.typeIdent "K".toList))).coq =
    (Expr.sliceType (.tupleType [.mapType (.typeIdent "K".toList)])).coq := by
  decide

end Goose.Coq
