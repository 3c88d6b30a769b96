import Goose.Coq.Types
import Goose.Coq.Skeleton

/-! Reading the types of a file back. A reader goes through `File.Write`'s output line by line
as a small state machine. Between declarations it takes `Definition name: ty := t.` for a type,
`Theorem name_t: ⊢ name : (t -> …).` for a typed function and `Module name.` for a struct;
inside a struct's module it skips the comment, then reads the list of `struct.decl [ … ]` one
field a line. Every other line is indented or starts with another character, because `AddLine`,
`Block` and `AddComment` re-indent what they are given. So the reader finds every struct's
fields with their types, every type's body and every typed function's types, in order, and
nothing else. -/

namespace Goose.Coq

/-- What a reader of the output learns of the types a declaration defines or states. -/
inductive Signature where
  | record (name : List Char) (fields : List FieldDecl)
  | typeDef (name : List Char) (body : Expr)
  | typing (name : List Char) (types : List Expr)

/-- The signatures a declaration's rendering states. -/
def Decl.signatures : Decl → List Signature
  | .funcDecl d => if d.addTypes then [.typing d.name d.typeExprs] else []
  | .structDecl d => [.record d.name d.fields]
  | .typeDecl d => [.typeDef d.name d.body]
  | .constDecl _ | .commentDecl _ => []

/-- A name as `quote` writes it, `<>` for `_`, and the text after it. -/
def readQuoted : List Char → Option (List Char × List Char)
  | '<' :: '>' :: r => some ("_".toList, r)
  | '"' :: r =>
    match r.span (· != '"') with
    | (name, '"' :: r) => some (name, r)
    | _ => none
  | _ => none

/-- A line of `struct.decl`: a field's quoted name, ` :: ` and its type, then `;` when another
field follows. -/
def readField (n : Nat) (l : List Char) : Option (FieldDecl × Bool) := do
  let r ← l.dropPrefix? "    ".toList
  let (name, r) ← readQuoted r
  let r ← r.dropPrefix? " :: ".toList
  match readType n r with
  | some (t, []) => some (⟨name, t⟩, false)
  | some (t, [';']) => some (⟨name, t⟩, true)
  | _ => none

/-- `Module name.`, the first line of a struct. -/
def readModule (l : List Char) : Option (List Char) := do
  let r ← l.dropPrefix? "Module ".toList
  match r.span isIdentChar with
  | (name, ['.']) => some name
  | _ => none

/-- `Definition name: ty := t.`, a type declaration. -/
def readTypeDef (n : Nat) (l : List Char) : Option Signature := do
  let r ← l.dropPrefix? "Definition ".toList
  let (name, r) := r.span isIdentChar
  let r ← r.dropPrefix? ": ty := ".toList
  let r ← r.dropSuffix? ".".toList
  match readType n r with
  | some (body, []) => some (.typeDef name body)
  | _ => none

/-- `Theorem name_t: ⊢ name : (t -> …).`, the typing of a function. -/
def readTyping (n : Nat) (l : List Char) : Option Signature := do
  let r ← l.dropPrefix? "Theorem ".toList
  let (thm, r) := r.span isIdentChar
  let r ← r.dropPrefix? ": ⊢ ".toList
  let (name, r) := r.span isIdentChar
  let r ← r.dropPrefix? " : (".toList
  match readArrows n r with
  | some (types, ['.']) => if thm = name ++ "_t".toList then some (.typing name types) else none
  | _ => none

def fieldsOpen : List Char := "  Definition S := struct.decl [".toList

def fieldsClose : List Char := "  ].".toList

/-- Where the reader stands: between declarations, in a struct's module before its field list,
in the field list expecting a field (or `].` when there is none yet), or after the last field. -/
inductive Scan where
  | top
  | module (name : List Char)
  | fields (name : List Char) (found : List FieldDecl)
  | closing (name : List Char) (found : List FieldDecl)

/-- One line of the reader, with the budget `n` for reading types. -/
def scanLine (n : Nat) : Scan → List Char → Scan × List Signature
  | .top, l =>
    match readModule l with
    | some name => (.module name, [])
    | none => (.top, (readTypeDef n l <|> readTyping n l).toList)
  | .module name, l => (if l = fieldsOpen then .fields name [] else .module name, [])
  | .fields name found, l =>
    if l = fieldsClose ∧ found.isEmpty then (.top, [.record name []])
    else match readField n l with
      | some (fd, true) => (.fields name (found ++ [fd]), [])
      | some (fd, false) => (.closing name (found ++ [fd]), [])
      | none => (.top, [])
  | .closing name found, l => (.top, if l = fieldsClose then [.record name found] else [])

/-- The reader's state and what it has found, after one more line. -/
def scanStep (n : Nat) (p : Scan × List Signature) (l : List Char) : Scan × List Signature :=
  ((scanLine n p.1 l).1, p.2 ++ (scanLine n p.1 l).2)

/-- Everything the reader finds in a text, line by line from between declarations. -/
def readSignatures (n : Nat) (s : List Char) : List Signature :=
  ((s.splitOn '\n').foldl (scanStep n) (.top, [])).2

/-- What the reader needs of a declaration: the names it declares are identifiers, field names
have no quote or newline, and the types it reads back are readable. -/
def Decl.SignatureLeaves : Decl → Prop
  | .funcDecl d => d.name.all isIdentChar = true ∧
      (d.addTypes = true → (∀ a ∈ d.args, a.type.ReadableType) ∧ d.returnType.ReadableType)
  | .structDecl d => d.name.all isIdentChar = true ∧
      ∀ fd ∈ d.fields, '"' ∉ fd.name ∧ '\n' ∉ fd.name ∧ fd.type.ReadableType
  | .typeDecl d => d.name.all isIdentChar = true ∧ d.body.ReadableType
  | .constDecl d => d.name.all isIdentChar = true
  | .commentDecl _ => True

/-- From some budget on, the lines `ls` take the reader from `st` to `st'` and it finds `sigs`,
whatever it had found before. -/
def Scans (st : Scan) (ls : List (List Char)) (st' : Scan) (sigs : List Signature) : Prop :=
  ∀ found, Eventually (fun n => ls.foldl (scanStep n) (st, found)) (st', found ++ sigs)

/-- A line that leaves the reader where it stands and finds nothing. -/
def Idle (st : Scan) (l : List Char) : Prop := ∀ n, scanLine n st l = (st, [])

theorem Scans.nil (st : Scan) : Scans st [] st [] := fun found => ⟨0, fun n _ => by simp⟩

theorem Scans.append {st st₁ st₂ : Scan} {ls₁ ls₂ : List (List Char)} {o₁ o₂ : List Signature}
    (h₁ : Scans st ls₁ st₁ o₁) (h₂ : Scans st₁ ls₂ st₂ o₂) : Scans st (ls₁ ++ ls₂) st₂ (o₁ ++ o₂) :=
  fun found => (h₁ found).zip (h₂ (found ++ o₁)) fun n e₁ e₂ => by
    rw [List.foldl_append, e₁, e₂, List.append_assoc]

theorem Scans.line {st st' : Scan} {l : List Char} {o : List Signature}
    (h : Eventually (scanLine · st l) (st', o)) : Scans st [l] st' o :=
  fun found => h.map fun n e => by simp [scanStep, e]

theorem foldl_idle {st : Scan} {n : Nat} : ∀ {ls : List (List Char)}, (∀ l ∈ ls, Idle st l) →
    ∀ found, ls.foldl (scanStep n) (st, found) = (st, found)
  | [], _, _ => rfl
  | l :: ls, h, found => by
    rw [List.foldl_cons, scanStep, h l (.head _) n, List.append_nil]
    exact foldl_idle (fun l' hl' => h l' (.tail _ hl')) found

theorem Scans.idle {st : Scan} {ls : List (List Char)} (h : ∀ l ∈ ls, Idle st l) :
    Scans st ls st [] :=
  fun found => ⟨0, fun n _ => (foldl_idle h found).trans (by rw [List.append_nil])⟩

theorem Scans.flatMap {δ : Type} {st : Scan} {g : δ → List (List Char)} {o : δ → List Signature} :
    ∀ {xs : List δ}, (∀ x ∈ xs, Scans st (g x) st (o x)) → Scans st (xs.flatMap g) st (xs.flatMap o)
  | [], _ => Scans.nil st
  | x :: xs, h => by
    simpa only [List.flatMap_cons] using
      (h x (.head _)).append (Scans.flatMap fun y hy => h y (.tail _ hy))

theorem Scans.cons_lines {st st₁ st₂ : Scan} {x : List Char} {xs : List (List Char)}
    {o₁ o₂ : List Signature} (h₁ : Scans st (x.splitOn '\n') st₁ o₁)
    (h₂ : Scans st₁ (xs.flatMap (·.splitOn '\n')) st₂ o₂) :
    Scans st ((x :: xs).flatMap (·.splitOn '\n')) st₂ (o₁ ++ o₂) := by
  rw [List.flatMap_cons]
  exact h₁.append h₂

theorem Scans.append_lines {st st₁ st₂ : Scan} {xs ys : List (List Char)} {o₁ o₂ : List Signature}
    (h₁ : Scans st (xs.flatMap (·.splitOn '\n')) st₁ o₁)
    (h₂ : Scans st₁ (ys.flatMap (·.splitOn '\n')) st₂ o₂) :
    Scans st ((xs ++ ys).flatMap (·.splitOn '\n')) st₂ (o₁ ++ o₂) := by
  rw [List.flatMap_append]
  exact h₁.append h₂

theorem splitOn_join_newline : ∀ {ls : List (List Char)}, ls ≠ [] →
    (join ls ['\n']).splitOn '\n' = ls.flatMap (·.splitOn '\n')
  | [], h => absurd rfl h
  | [x], _ => by simp
  | x :: y :: ls, _ => by
    rw [join_cons_cons, List.append_assoc, List.singleton_append, splitOn_append_newline,
      splitOn_join_newline (List.cons_ne_nil y ls)]
    simp only [List.flatMap_cons]

theorem not_mem_of_mem_splitOn : ∀ {s l : List Char}, l ∈ s.splitOn '\n' → '\n' ∉ l
  | [], l, h => by simp_all
  | c :: s, l, h => by
    obtain ⟨l₀, ls, hs, -⟩ := splitOn_newline_head s
    have ih : ∀ l ∈ l₀ :: ls, '\n' ∉ l := fun l hl => not_mem_of_mem_splitOn (hs ▸ hl)
    rw [splitOn_newline_cons, hs] at h
    split at h
    · rcases List.mem_cons.mp h with rfl | h
      · exact List.not_mem_nil _
      · exact ih l h
    · rcases List.mem_cons.mp h with rfl | h
      · simpa [Ne.symm ‹¬c = '\n'›] using ih l₀ (.head _)
      · exact ih l (.tail _ h)

theorem splitOn_shiftLines (k : Nat) (s : List Char) :
    (shiftLines k s).splitOn '\n' = indentLines (List.replicate k ' ') (s.splitOn '\n') := by
  obtain ⟨l₀, ls, hs, -⟩ := splitOn_newline_head s
  rw [← join_indentLines k s]
  refine List.splitOn_intercalate _ '\n' (fun l hl => ?_) (by simp [hs, indentLines])
  rw [hs, indentLines] at hl
  rcases List.mem_cons.mp hl with rfl | hl
  · exact @not_mem_of_mem_splitOn s _ (by rw [hs]; exact .head _)
  · obtain ⟨l', hl', rfl⟩ := List.mem_map.mp hl
    have hn := @not_mem_of_mem_splitOn s _ (by rw [hs]; exact .tail _ hl')
    split <;> simp [hn, List.mem_replicate]

theorem splitOn_append_head {p : List Char} (hp : '\n' ∉ p) (s : List Char) :
    ∃ r ls, (p ++ s).splitOn '\n' = (p ++ r) :: ls := by
  induction p with
  | nil => exact (splitOn_newline_head s).imp fun r ⟨ls, h, _⟩ => ⟨ls, h⟩
  | cons c p ih =>
    obtain ⟨r, ls, h⟩ := ih (fun h' => hp (.tail _ h'))
    refine ⟨r, ls, ?_⟩
    rw [List.cons_append, splitOn_newline_cons, if_neg (by rintro rfl; exact hp (.head _)), h]
    rfl

theorem mem_splitOn_shifted {p s l : List Char} {k : Nat} (hp : '\n' ∉ p)
    (hl : l ∈ (p ++ shiftLines k s).splitOn '\n') :
    (∃ r, l = p ++ r) ∨ l = [] ∨ ∃ r, l = List.replicate k ' ' ++ r := by
  have last : p.getLast? ≠ some '\n' := fun h => hp (List.mem_of_getLast?_eq_some h)
  rw [← @shiftLines_of_not_mem k p hp, ← shiftLines_append s last, splitOn_shiftLines] at hl
  obtain ⟨r, ls, hs⟩ := splitOn_append_head hp s
  rw [hs, indentLines] at hl
  rcases List.mem_cons.mp hl with rfl | hl
  · exact .inl ⟨r, rfl⟩
  · obtain ⟨l', -, rfl⟩ := List.mem_map.mp hl
    split
    · exact .inr (.inl rfl)
    · exact .inr (.inr ⟨l', rfl⟩)

theorem splitOn_of_not_mem {s : List Char} (h : '\n' ∉ s) : s.splitOn '\n' = [s] :=
  List.splitOnP_eq_single _ _ fun c hc hnl => h (@eq_of_beq Char _ _ c '\n' hnl ▸ hc)

theorem lineAt_of_not_mem {t : List Char} (h : '\n' ∉ t) (ht : t ≠ []) (k : Nat) :
    lineAt k t = List.replicate k ' ' ++ t := by
  rw [lineAt, if_neg ht, shiftLines_of_not_mem h]

theorem append_ne_of_not_isPrefix {p r t : List Char} (h : ¬p <+: t) : p ++ r ≠ t :=
  fun e => h ⟨r, e⟩

theorem dropPrefix?_append_self (p r : List Char) : (p ++ r).dropPrefix? p = some r :=
  List.dropPrefix?_append_of_beq r (beq_self_eq_true p)

theorem dropPrefix?_of_not_isPrefix {p r : List Char} (h : ¬p <+: r) : r.dropPrefix? p = none := by
  cases e : r.dropPrefix? p with
  | none => rfl
  | some s =>
    obtain ⟨p', rfl, hp⟩ := List.dropPrefix?_eq_some_iff.mp e
    obtain rfl := eq_of_beq hp
    exact absurd ⟨s, rfl⟩ h

theorem readModule_of_head {c : Char} (hc : c ≠ 'M') (l : List Char) : readModule (c :: l) = none := by
  simp [readModule, List.dropPrefix?, hc]

theorem readTypeDef_of_head {c : Char} (hc : c ≠ 'D') (n : Nat) (l : List Char) :
    readTypeDef n (c :: l) = none := by
  simp [readTypeDef, List.dropPrefix?, hc]

theorem readTyping_of_head {c : Char} (hc : c ≠ 'T') (n : Nat) (l : List Char) :
    readTyping n (c :: l) = none := by
  simp [readTyping, List.dropPrefix?, hc]

theorem readModule_line {name : List Char} (hname : ∀ c ∈ name, isIdentChar c) :
    readModule ("Module ".toList ++ name ++ ".".toList) = some name := by
  have word : (name ++ ".".toList).span isIdentChar = (name, ['.']) :=
    span_append hname fun c hc => by cases hc; rfl
  simp only [readModule, List.append_assoc, dropPrefix?_append_self, Option.bind_eq_bind,
    Option.some_bind, word]

theorem readTypeDef_line {name b : List Char} (hname : ∀ c ∈ name, isIdentChar c) (n : Nat) :
    readTypeDef n ("Definition ".toList ++ name ++ ": ty := ".toList ++ b ++ ".".toList) =
      match readType n b with
      | some (body, []) => some (.typeDef name body)
      | _ => none := by
  have word : (name ++ (": ty := ".toList ++ (b ++ ".".toList))).span isIdentChar =
      (name, ": ty := ".toList ++ (b ++ ".".toList)) :=
    span_append hname fun c hc => by cases hc; rfl
  have body : (b ++ ".".toList).dropSuffix? ".".toList = some b :=
    List.dropSuffix?_eq_some_iff.mpr ⟨_, rfl, beq_self_eq_true _⟩
  simp only [readTypeDef, List.append_assoc, dropPrefix?_append_self, Option.bind_eq_bind,
    Option.some_bind, word, body]

theorem readTypeDef_of_not_ty {name r : List Char} (hname : ∀ c ∈ name, isIdentChar c)
    (hr : ∀ c ∈ r.head?, isIdentChar c = false) (hty : ¬": ty := ".toList <+: r) (n : Nat) :
    readTypeDef n ("Definition ".toList ++ (name ++ r)) = none := by
  simp only [readTypeDef, dropPrefix?_append_self, Option.bind_eq_bind, Option.some_bind,
    span_append hname hr, dropPrefix?_of_not_isPrefix hty, Option.none_bind]

theorem readTyping_line {name ty : List Char} (hname : ∀ c ∈ name, isIdentChar c) (n : Nat) :
    readTyping n ("Theorem ".toList ++ name ++ "_t: ⊢ ".toList ++ name ++ " : (".toList ++ ty ++
      ").".toList) =
      match readArrows n (ty ++ ')' :: ['.']) with
      | some (types, ['.']) => some (.typing name types)
      | _ => none := by
  have thm : (name ++ ("_t: ⊢ ".toList ++ (name ++ (" : (".toList ++ (ty ++ ").".toList))))).span
      isIdentChar = (name ++ "_t".toList, ": ⊢ ".toList ++ (name ++ (" : (".toList ++ (ty ++ ").".toList)))) := by
    rw [show "_t: ⊢ ".toList ++ (name ++ (" : (".toList ++ (ty ++ ").".toList))) =
      "_t".toList ++ (": ⊢ ".toList ++ (name ++ (" : (".toList ++ (ty ++ ").".toList)))) from rfl,
      ← List.append_assoc name]
    exact span_append (List.forall_mem_append.mpr ⟨hname, by decide⟩) fun c hc => by cases hc; rfl
  have word : (name ++ (" : (".toList ++ (ty ++ ").".toList))).span isIdentChar =
      (name, " : (".toList ++ (ty ++ ").".toList)) :=
    span_append hname fun c hc => by cases hc; rfl
  simp only [readTyping, List.append_assoc, dropPrefix?_append_self, Option.bind_eq_bind,
    Option.some_bind, thm, word]
  rfl

theorem idle_top_of_head {c : Char} {l : List Char} (hc : c ≠ 'D' ∧ c ≠ 'M' ∧ c ≠ 'T') :
    Idle .top (c :: l) := fun n => by
  simp [scanLine, readModule_of_head hc.2.1, readTypeDef_of_head hc.1, readTyping_of_head hc.2.2]

theorem idle_top_definition {name r : List Char} (hname : ∀ c ∈ name, isIdentChar c)
    (hr : ∀ c ∈ r.head?, isIdentChar c = false) (hty : ¬": ty := ".toList <+: r) :
    Idle .top ("Definition ".toList ++ (name ++ r)) := fun n => by
  have module : readModule ("Definition ".toList ++ (name ++ r)) = none :=
    readModule_of_head (by decide) _
  have typing : readTyping n ("Definition ".toList ++ (name ++ r)) = none :=
    readTyping_of_head (by decide) n _
  rw [scanLine, module, readTypeDef_of_not_ty hname hr hty, typing]
  rfl

theorem idle_top_nil : Idle .top [] := fun _ => rfl

theorem idle_top_of_head? {l : List Char} (h : ∀ c ∈ l.head?, c ≠ 'D' ∧ c ≠ 'M' ∧ c ≠ 'T') :
    Idle .top l := by
  cases l with
  | nil => exact idle_top_nil
  | cons c l => exact idle_top_of_head (h c rfl)

theorem idle_top_indented {k : Nat} (hk : 0 < k) (r : List Char) :
    Idle .top (List.replicate k ' ' ++ r) := by
  obtain ⟨j, rfl⟩ : ∃ j, k = j + 1 := ⟨k - 1, by omega⟩
  rw [List.replicate_succ, List.cons_append]
  exact idle_top_of_head (by decide)

theorem idle_top_shifted {p s : List Char} {k : Nat} (hp : '\n' ∉ p) (hk : 0 < k)
    (first : ∀ r, Idle .top (p ++ r)) : ∀ l ∈ (p ++ shiftLines k s).splitOn '\n', Idle .top l := by
  intro l hl
  rcases mem_splitOn_shifted hp hl with ⟨r, rfl⟩ | rfl | ⟨r, rfl⟩
  · exact first r
  · exact idle_top_nil
  · exact idle_top_indented hk r

theorem idle_top_lineAt {k : Nat} (hk : 0 < k) (t : List Char) :
    ∀ l ∈ (lineAt k t).splitOn '\n', Idle .top l := by
  unfold lineAt
  split
  · simpa using idle_top_nil
  · exact idle_top_shifted (by simp [List.mem_replicate]) hk (idle_top_indented hk)

theorem lineAt_commentText (k : Nat) (c : List Char) :
    lineAt k (commentText c) =
      List.replicate k ' ' ++ "(* ".toList ++ shiftLines (k + 3) (c ++ " *)".toList) := by
  rw [lineAt, if_neg (by simp [commentText]), commentText, shiftLines_append _ (by decide),
    shiftLines_of_not_mem (by decide), shiftLines_shiftLines, List.append_assoc]

theorem idle_top_commentLines (c : List Char) :
    ∀ l ∈ (commentLines c).flatMap (·.splitOn '\n'), Idle .top l := by
  unfold commentLines
  split
  · simp
  · have level := lineAt_commentText 0 c
    rw [lineAt_zero, id] at level
    rw [List.flatMap_singleton, level]
    exact idle_top_shifted (by decide) (by decide) fun r => idle_top_of_head (by decide)

theorem idle_top_comment (c : List Char) :
    ∀ l ∈ (join (commentLines c) ['\n']).splitOn '\n', Idle .top l := by
  by_cases hc : commentLines c = []
  · rw [hc]
    simpa using idle_top_nil
  · rw [splitOn_join_newline hc]
    exact idle_top_commentLines c

theorem idle_module_comment (name c : List Char) :
    ∀ l ∈ ((commentLines c).map (lineAt 2)).flatMap (·.splitOn '\n'), Idle (.module name) l := by
  have idle : ∀ l, l ≠ fieldsOpen → Idle (.module name) l := fun l h n => by simp [scanLine, h]
  unfold commentLines
  split
  · simp
  · simp only [List.map_cons, List.map_nil, List.flatMap_cons, List.flatMap_nil, List.append_nil,
      lineAt_commentText]
    intro l hl
    rcases mem_splitOn_shifted (by decide) hl with ⟨r, rfl⟩ | rfl | ⟨r, rfl⟩
    · exact idle _ (append_ne_of_not_isPrefix (by decide))
    · exact idle _ (by decide)
    · exact idle _ (append_ne_of_not_isPrefix (by decide))

theorem Expr.ReadableType.isType {t : Expr} (h : t.ReadableType) : t.IsType := by
  induction h with
  | typeIdent hw _ => exact .typeIdent fun hn => absurd (hw.2.1 _ hn) (by decide)
  | structName hw => exact .structName fun hn => absurd (hw.2.1 _ (List.mem_append_left _ hn)) (by decide)
  | mapType _ ih => exact .mapType ih
  | sliceType _ ih => exact .sliceType ih
  | ptrType _ ih => exact .ptrType ih
  | tupleType _ _ ih => exact .tupleType ih

theorem readQuoted_quote {name : List Char} (h : '"' ∉ name) (r : List Char) :
    readQuoted (quote name ++ r) = some (name, r) := by
  unfold quote
  split
  · subst_vars
    rfl
  · have word : (name ++ '"' :: r).span (· != '"') = (name, '"' :: r) :=
      span_append (fun c hc => bne_iff_ne.mpr fun e => h (e ▸ hc)) fun c hc => by cases hc; rfl
    simp [readQuoted, word, -List.span_eq_take_drop]

theorem readField_line {name t sep : List Char} (hq : '"' ∉ name) (n : Nat) :
    readField n ("    ".toList ++ (quote name ++ " :: ".toList ++ t ++ sep)) =
      match readType n (t ++ sep) with
      | some (ty, []) => some (⟨name, ty⟩, false)
      | some (ty, [';']) => some (⟨name, ty⟩, true)
      | _ => none := by
  simp only [readField, List.append_assoc, dropPrefix?_append_self, Option.bind_eq_bind,
    Option.some_bind, readQuoted_quote hq]

theorem Scans.field {name : List Char} {acc : List FieldDecl} {fd : FieldDecl} {r : List Char}
    (hq : '"' ∉ fd.name) (hn : '\n' ∉ fd.name) (ht : fd.type.ReadableType)
    (hr : fd.coqField = some r) (more : Bool) :
    Scans (.fields name acc) ((lineAt 4 (r ++ if more then ";".toList else [])).splitOn '\n')
      (if more then .fields name (acc ++ [fd]) else .closing name (acc ++ [fd])) [] := by
  obtain ⟨t, rendered, reads⟩ := ht.reads
  have hr : r = quote fd.name ++ " :: ".toList ++ t := by
    simpa [FieldDecl.coqField, rendered] using hr.symm
  subst hr
  have quoted : '\n' ∉ quote fd.name := by unfold quote; split <;> simp [hn]
  have field : '\n' ∉ quote fd.name ++ " :: ".toList ++ t :=
    List.not_mem_append (List.not_mem_append quoted (by decide)) (ht.isType.coq_one_line rendered)
  have close_ne : ∀ x, ¬("    ".toList ++ x = fieldsClose ∧ acc.isEmpty = true) :=
    fun x h => append_ne_of_not_isPrefix (by decide) h.1
  have scans : ∀ (sep : List Char) (st : Scan), '\n' ∉ sep → EndsType sep →
      (∀ n, readType n (t ++ sep) = some (fd.type, sep) →
        scanLine n (.fields name acc) ("    ".toList ++ (quote fd.name ++ " :: ".toList ++ t ++ sep)) =
          (st, [])) →
      Scans (.fields name acc) ((lineAt 4 (quote fd.name ++ " :: ".toList ++ t ++ sep)).splitOn '\n')
        st [] := by
    intro sep st hsep ends step
    have line := List.not_mem_append field hsep
    rw [lineAt_of_not_mem line (by simp [quote]),
      splitOn_of_not_mem (List.not_mem_append (by simp [List.mem_replicate]) line)]
    exact Scans.line ((reads.type sep ends).map step)
  cases more with
  | false =>
    refine scans [] _ (List.not_mem_nil _) (fun _ h => by cases h) fun n h => ?_
    rw [scanLine, if_neg (close_ne _), readField_line hq, h]
    rfl
  | true =>
    refine scans [';'] _ (by decide) (fun _ h => by cases h; rfl) fun n h => ?_
    rw [scanLine, if_neg (close_ne _), readField_line hq, h]
    rfl

theorem mapM_cons_some {α β : Type} {f : α → Option β} {a : α} {l : List α} {rs : List β}
    (h : (a :: l).mapM f = some rs) : ∃ b bs, f a = some b ∧ l.mapM f = some bs ∧ rs = b :: bs := by
  simp only [List.mapM_cons, Option.bind_eq_bind, Option.bind_eq_some, Option.pure_def,
    Option.some.injEq] at h
  obtain ⟨b, hb, bs, hbs, rfl⟩ := h
  exact ⟨b, bs, hb, hbs, rfl⟩

theorem Scans.fieldLines {name : List Char} :
    ∀ {fs : List FieldDecl} {rs : List (List Char)} (acc : List FieldDecl),
      fs.mapM FieldDecl.coqField = some rs →
      (∀ fd ∈ fs, '"' ∉ fd.name ∧ '\n' ∉ fd.name ∧ fd.type.ReadableType) → fs ≠ [] →
      Scans (.fields name acc) (((terminated ";".toList rs).map (lineAt 4)).flatMap (·.splitOn '\n'))
        (.closing name (acc ++ fs)) []
  | [], _, _, _, _, ne => absurd rfl ne
  | [fd], _, acc, hrs, h, _ => by
    obtain ⟨r, _, hr, hbs, rfl⟩ := mapM_cons_some hrs
    cases hbs
    have field := (h fd (.head _)).2.2
    simpa [terminated] using @Scans.field name acc fd r (h fd (.head _)).1 (h fd (.head _)).2.1
      field hr false
  | fd :: fd' :: fs, _, acc, hrs, h, _ => by
    obtain ⟨r, rs, hr, hrest, rfl⟩ := mapM_cons_some hrs
    obtain ⟨r', rs', -, -, rfl⟩ := mapM_cons_some hrest
    have first := @Scans.field name acc fd r (h fd (.head _)).1 (h fd (.head _)).2.1
      (h fd (.head _)).2.2 hr true
    have rest := @Scans.fieldLines name _ _ (acc ++ [fd]) hrest (fun x hx => h x (.tail _ hx))
      (List.cons_ne_nil fd' fs)
    rw [List.append_assoc, List.singleton_append] at rest
    exact Scans.cons_lines first rest

theorem Scans.fieldsClosed {name : List Char} {F R : List (List Char)} {o : List Signature}
    (fields : ∃ st, Scans (.fields name []) (F.flatMap (·.splitOn '\n')) st [] ∧
      ∀ n, scanLine n st fieldsClose = (.top, o))
    (rest : ∀ x ∈ R, ∀ l ∈ x.splitOn '\n', Idle .top l) :
    Scans (.fields name []) ((F ++ lineAt 2 "].".toList :: R).flatMap (·.splitOn '\n')) .top o := by
  obtain ⟨st, listed, close⟩ := fields
  have closed : Scans st ((lineAt 2 "].".toList).splitOn '\n') .top o := by
    rw [show lineAt 2 "].".toList = fieldsClose by decide, splitOn_of_not_mem (by decide)]
    exact Scans.line ⟨0, fun n _ => close n⟩
  have after : Scans .top (R.flatMap (·.splitOn '\n')) .top [] :=
    Scans.idle fun l hl => let ⟨x, hx, hl⟩ := List.mem_flatMap.mp hl; rest x hx l hl
  have whole := listed.append_lines (closed.cons_lines after)
  rwa [List.nil_append, List.append_nil] at whole

theorem idle_top_line {s : List Char} (hs : '\n' ∉ s) (h : Idle .top s) :
    ∀ l ∈ s.splitOn '\n', Idle .top l := by
  rw [splitOn_of_not_mem hs]
  simpa using h

theorem StructDecl.coqDecl_scans {d : StructDecl} {s : List Char}
    (h : (Decl.structDecl d).SignatureLeaves) (hs : d.coqDecl = some s) :
    Scans .top (s.splitOn '\n') .top [.record d.name d.fields] := by
  obtain ⟨name, fields⟩ := h
  rw [structDecl_coqDecl_eq] at hs
  obtain ⟨rs, hrs, rfl⟩ := Option.map_eq_some'.mp hs
  have module : Scans .top (("Module ".toList ++ d.name ++ ".".toList).splitOn '\n')
      (.module d.name) [] := by
    rw [splitOn_of_not_mem (by simp [newline_not_mem_of_ident name])]
    exact Scans.line ⟨0, fun n _ => by dsimp only; rw [scanLine, readModule_line (List.all_eq_true.mp name)]⟩
  have opened : Scans (.module d.name) ((lineAt 2 "Definition S := struct.decl [".toList).splitOn '\n')
      (.fields d.name []) [] := by
    rw [show lineAt 2 "Definition S := struct.decl [".toList = fieldsOpen by decide,
      splitOn_of_not_mem (by decide)]
    exact Scans.line ⟨0, fun n _ => by dsimp only; rw [scanLine, if_pos rfl]⟩
  rw [splitOn_join_newline (List.cons_ne_nil _ _)]
  refine Scans.cons_lines module (Scans.append_lines (Scans.idle (idle_module_comment _ _))
    (Scans.cons_lines opened (Scans.fieldsClosed ?_ ?_)))
  · cases hf : d.fields with
    | nil =>
      obtain rfl : rs = [] := by
        rw [hf, List.mapM_nil] at hrs
        exact (Option.some.inj hrs).symm
      exact ⟨_, Scans.nil _, fun n => by rw [scanLine, if_pos ⟨rfl, rfl⟩]⟩
    | cons fd fs =>
      refine ⟨_, @Scans.fieldLines d.name (fd :: fs) rs [] (hf ▸ hrs) (hf ▸ fields)
        (List.cons_ne_nil _ _), fun n => ?_⟩
      rw [scanLine, if_pos rfl]
      rfl
  · intro x hx
    simp only [List.mem_cons, List.mem_singleton, List.not_mem_nil, or_false] at hx
    rcases hx with rfl | rfl | rfl | rfl | rfl | rfl | rfl | rfl
    all_goals first
      | exact idle_top_lineAt (by decide) _
      | exact idle_top_line (by simp [newline_not_mem_of_ident name]) (idle_top_of_head (by decide))

theorem typingLines_scans {d : FuncDecl} {ty : List Char} (name : ∀ c ∈ d.name, isIdentChar c)
    (one : '\n' ∉ ty) (reads : ∀ r, Eventually (readArrows · (ty ++ ')' :: r)) (some (d.typeExprs, r))) :
    Scans .top ((typingLines d.name ty).flatMap (·.splitOn '\n')) .top [.typing d.name d.typeExprs] := by
  have hn : '\n' ∉ d.name := fun h => absurd (name _ h) (by decide)
  have thm : Scans .top (("Theorem ".toList ++ d.name ++ "_t: ⊢ ".toList ++ d.name ++ " : (".toList ++
      ty ++ ").".toList).splitOn '\n') .top [.typing d.name d.typeExprs] := by
    rw [splitOn_of_not_mem (by simp [hn, one])]
    refine Scans.line ((reads ['.']).map fun n h => ?_)
    have module : readModule ("Theorem ".toList ++ d.name ++ "_t: ⊢ ".toList ++ d.name ++
        " : (".toList ++ ty ++ ").".toList) = none := readModule_of_head (by decide) _
    have typeDef : readTypeDef n ("Theorem ".toList ++ d.name ++ "_t: ⊢ ".toList ++ d.name ++
        " : (".toList ++ ty ++ ").".toList) = none := readTypeDef_of_head (by decide) n _
    rw [scanLine, module, typeDef, readTyping_line name, h]
    rfl
  have proof : Scans .top ("Proof. typecheck. Qed.".toList.splitOn '\n') .top [] :=
    Scans.idle (idle_top_line (by decide) (idle_top_of_head (by decide)))
  have hint : Scans .top (("Hint Resolve ".toList ++ d.name ++ "_t : types.".toList).splitOn '\n')
      .top [] := Scans.idle (idle_top_line (by simp [hn]) (idle_top_of_head (by decide)))
  exact thm.cons_lines (proof.cons_lines (hint.cons_lines (Scans.nil _)))

theorem FuncDecl.coqDecl_scans {d : FuncDecl} {s : List Char}
    (h : (Decl.funcDecl d).SignatureLeaves) (hs : d.coqDecl = some s) :
    Scans .top (s.splitOn '\n') .top (Decl.funcDecl d).signatures := by
  obtain ⟨name, typed⟩ := h
  have hname := List.all_eq_true.mp name
  simp only [funcDecl_coqDecl_eq, Option.bind_eq_bind, Option.bind_eq_some, Option.pure_def,
    Option.some.injEq] at hs
  obtain ⟨b, -, typing, htyping, rfl⟩ := hs
  have definition : Scans .top (["Definition ".toList ++ d.name ++ ": val :=".toList,
      lineAt 2 ("λ: ".toList ++ d.signature ++ ",".toList), lineAt 4 (b ++ ".".toList)].flatMap
        (·.splitOn '\n')) .top [] := by
    refine Scans.idle fun l hl => ?_
    obtain ⟨x, hx, hl⟩ := List.mem_flatMap.mp hl
    simp only [List.mem_cons, List.mem_singleton, List.not_mem_nil, or_false] at hx
    rcases hx with rfl | rfl | rfl
    · rw [List.append_assoc] at hl
      exact idle_top_line (by simp [newline_not_mem_of_ident name]) (idle_top_definition hname
        (fun c hc => by cases hc; rfl) (by decide)) l hl
    · exact idle_top_lineAt (by decide) _ l hl
    · exact idle_top_lineAt (by decide) _ l hl
  have typings : Scans .top (typing.flatMap (·.splitOn '\n')) .top (Decl.funcDecl d).signatures := by
    unfold FuncDecl.typing at htyping
    rw [Decl.signatures]
    split at htyping
    · obtain ⟨ty, hty, rfl⟩ := Option.map_eq_some'.mp htyping
      obtain ⟨args, ret⟩ := typed ‹_›
      obtain ⟨ty', hty', reads⟩ := FuncDecl.type_reads args ret
      rw [hty, Option.some_inj] at hty'
      subst hty'
      rw [if_pos ‹_›]
      exact typingLines_scans hname
        (FuncDecl.type_one_line (fun a ha => (args a ha).isType) ret.isType hty) reads
    · cases htyping
      rw [if_neg ‹_›]
      exact Scans.nil _
  rw [splitOn_join_newline (by simp)]
  exact ((Scans.idle (idle_top_commentLines _)).append_lines definition).append_lines typings

theorem TypeDecl.coqDecl_scans {d : TypeDecl} {s : List Char}
    (h : (Decl.typeDecl d).SignatureLeaves) (hs : d.coqDecl = some s) :
    Scans .top (s.splitOn '\n') .top [.typeDef d.name d.body] := by
  obtain ⟨name, body⟩ := h
  rw [typeDecl_coqDecl_eq] at hs
  obtain ⟨b, hb, rfl⟩ := Option.map_eq_some'.mp hs
  obtain ⟨b', hb', reads⟩ := body.reads
  rw [hb, Option.some_inj] at hb'
  subst hb'
  rw [splitOn_of_not_mem (by simp [newline_not_mem_of_ident name, body.isType.coq_one_line hb])]
  refine Scans.line ((reads.type [] fun _ h => by cases h).map fun n h => ?_)
  have module : readModule ("Definition ".toList ++ d.name ++ ": ty := ".toList ++ b ++
      ".".toList) = none := readModule_of_head (by decide) _
  have typing : readTyping n ("Definition ".toList ++ d.name ++ ": ty := ".toList ++ b ++
      ".".toList) = none := readTyping_of_head (by decide) n _
  rw [List.append_nil] at h
  rw [scanLine, module, readTypeDef_line (List.all_eq_true.mp name), h, typing]
  rfl

theorem ConstDecl.coqDecl_scans {d : ConstDecl} {s : List Char}
    (h : (Decl.constDecl d).SignatureLeaves) (hs : d.coqDecl = some s) :
    Scans .top (s.splitOn '\n') .top [] := by
  rw [constDecl_coqDecl_eq] at hs
  obtain ⟨v, -, rfl⟩ := Option.map_eq_some'.mp hs
  have first : '\n' ∉ d.name ++ " : expr := ".toList := by simp [newline_not_mem_of_ident h]
  have split : shiftLines 11 (d.name ++ " : expr := ".toList ++ v ++ ".".toList) =
      d.name ++ " : expr := ".toList ++ shiftLines 11 (v ++ ".".toList) := by
    rw [List.append_assoc _ v, shiftLines_append _ fun e => first (List.mem_of_getLast?_eq_some e),
      shiftLines_of_not_mem first]
  have definition : ∀ l ∈ ("Definition ".toList ++ shiftLines 11 (d.name ++ " : expr := ".toList ++
      v ++ ".".toList)).splitOn '\n', Idle .top l := by
    rw [split, ← List.append_assoc]
    refine idle_top_shifted (by simp [newline_not_mem_of_ident h]) (by decide) fun r => ?_
    rw [List.append_assoc, List.append_assoc]
    exact idle_top_definition (List.all_eq_true.mp h) (fun c hc => by cases hc; rfl)
      fun ⟨_, e⟩ => by cases e
  rw [splitOn_join_newline (by simp)]
  exact (Scans.idle (idle_top_commentLines _)).append_lines
    ((Scans.idle definition).cons_lines (Scans.nil _))

theorem Decl.coqDecl_scans : ∀ {d : Decl} {s : List Char},
    d.SignatureLeaves → d.coqDecl = some s → Scans .top (s.splitOn '\n') .top d.signatures
  | .funcDecl _, _, h, hs => FuncDecl.coqDecl_scans h hs
  | .structDecl _, _, h, hs => StructDecl.coqDecl_scans h hs
  | .typeDecl _, _, h, hs => TypeDecl.coqDecl_scans h hs
  | .constDecl _, _, h, hs => ConstDecl.coqDecl_scans h hs
  | .commentDecl c, _, _, hs => by
    rw [Decl.coqDecl, commentDeclCoq_eq, Option.some_inj] at hs
    subst hs
    exact Scans.idle (idle_top_comment c)

theorem splitOn_println_append (x rest : List Char) :
    (println x ++ rest).splitOn '\n' = x.splitOn '\n' ++ rest.splitOn '\n' := by
  rw [println, List.append_assoc, List.singleton_append, splitOn_append_newline]

theorem Scans.decls : ∀ {ds : List Decl} {rs : List (List Char)}, ds.mapM Decl.coqDecl = some rs →
    (∀ d ∈ ds, d.SignatureLeaves) →
      Scans .top ((rs.map println).flatMap (·.splitOn '\n')) .top (ds.flatMap Decl.signatures)
  | [], rs, hrs, _ => by
    rw [List.mapM_nil, Option.pure_def, Option.some_inj] at hrs
    subst hrs
    exact Scans.nil _
  | d :: ds, _, hrs, h => by
    obtain ⟨r, rs, hr, hrest, rfl⟩ := mapM_cons_some hrs
    have empty : Scans .top (([] : List Char).splitOn '\n') .top [] :=
      Scans.idle (by simpa using idle_top_nil)
    have line := (Decl.coqDecl_scans (h d (.head _)) hr).append empty
    rw [← splitOn_println_append, List.append_nil, List.append_nil] at line
    exact line.cons_lines (Scans.decls hrest fun d' hd' => h d' (.tail _ hd'))

theorem File.write_scans {f : File} {s : List Char} (decls : ∀ d ∈ f.decls, d.SignatureLeaves)
    (hs : f.write = some s) : Scans .top (s.splitOn '\n') .top (f.decls.flatMap Decl.signatures) := by
  simp only [File.write, commentDeclCoq_eq, Option.bind_eq_bind, Option.bind_eq_some,
    Option.pure_def, Option.some.injEq] at hs
  obtain ⟨_, rfl, rs, hrs, rfl⟩ := hs
  have header : ∀ l ∈ (trimNewlines importHeader).splitOn '\n', Idle .top l :=
    fun l hl => idle_top_of_head? (by revert l; decide)
  have rendered : Scans .top ((join (rs.map println) ['\n']).splitOn '\n') .top
      (f.decls.flatMap Decl.signatures) := by
    cases rs with
    | nil =>
      cases hd : f.decls with
      | nil => exact Scans.idle (by simpa using idle_top_nil)
      | cons d ds =>
        rw [hd] at hrs
        obtain ⟨_, _, _, _, e⟩ := mapM_cons_some hrs
        cases e
    | cons r rs =>
      rw [splitOn_join_newline (by simp)]
      exact Scans.decls hrs decls
  rw [List.append_assoc, List.append_assoc, splitOn_println_append, splitOn_println_append,
    splitOn_println_append]
  exact (Scans.idle (idle_top_comment _)).append ((Scans.idle header).append
    ((Scans.idle (by simpa using idle_top_nil)).append rendered))

/-- Read line by line, the output of `File.Write` gives back every struct with its fields and
their types, every type declaration with its body and every function with `AddTypes` with its
argument and return types, in the order of the declarations, and nothing else. -/
theorem output_signatures_read_back :
    (∀ (d : Decl) (s : List Char), d.SignatureLeaves → d.coqDecl = some s →
      Eventually (readSignatures · s) d.signatures) ∧
    ∀ (f : File) (s : List Char), (∀ d ∈ f.decls, d.SignatureLeaves) → f.write = some s →
      Eventually (readSignatures · s) (f.decls.flatMap Decl.signatures) := by
  have read : ∀ {s : List Char} {sigs : List Signature}, Scans .top (s.splitOn '\n') .top sigs →
      Eventually (readSignatures · s) sigs :=
    fun h => (h []).map fun n e => by simp [readSignatures, e]
  exact ⟨fun _ _ h hs => read (Decl.coqDecl_scans h hs),
    fun _ _ h hs => read (File.write_scans h hs)⟩

theorem pairFile_signatures :
    (∀ d ∈ pairFile.decls, d.SignatureLeaves) ∧ ∃ s, pairFile.write = some s ∧
      Eventually (readSignatures · s) [
        .record "Pair".toList [⟨"fst".toList, .typeIdent "uint64T".toList⟩,
          ⟨"snd".toList, .typeIdent "uint64T".toList⟩],
        .typing "hello".toList [.typeIdent "unitT".toList, .typeIdent "stringT".toList],
        .typeDef "Pairs".toList (.sliceType (.structName "Pair".toList))] := by
  have uint64 : (Expr.typeIdent "uint64T".toList).ReadableType := .typeIdent (by decide) (by decide)
  have leaves : ∀ d ∈ pairFile.decls, d.SignatureLeaves := by
    simp only [pairFile, List.mem_cons, List.mem_singleton, List.not_mem_nil, or_false,
      forall_eq_or_imp, forall_eq]
    refine ⟨trivial, ⟨rfl, ?_⟩, ⟨rfl, fun _ => ⟨by simp, .typeIdent (by decide) (by decide)⟩⟩,
      rfl, .sliceType (.structName (by decide))⟩
    simpa using And.intro uint64 uint64
  have written : pairFile.write.isSome := by decide
  exact ⟨leaves, _, Option.eq_some_of_isSome written,
    output_signatures_read_back.2 _ _ leaves (Option.eq_some_of_isSome written)⟩

end Goose.Coq
