import Goose.Coq.NoPanic
import Mathlib.Data.Nat.Digits

/-! Reading renderings back. `BinaryExpr.Coq` never parenthesises its operands, so an operator
chain reads one way only; the reader takes chains to the right. Identifiers, integer and
boolean literals, calls, operators, `~`, `!` and tuples then read back to the tree that printed
them, so on that fragment `Coq()` is injective. -/

namespace Goose.Coq

def isIdentChar (c : Char) : Bool := c.isAlphanum || c == '_'

def isMethodChar (c : Char) : Bool := c.isAlphanum || c == '.'

/-- The characters an argument starts with once `addParens` has embedded it. -/
def isArgStart (c : Char) : Bool := c == '"' || c == '#' || c == '!' || c == '('

/-- The operator symbols of `coqBinOp` read back; `+` is `OpPlus`. -/
def opSymbols : List (Char × BinOp) :=
  [('+', opPlus), ('-', opMinus), ('=', opEquals), ('*', opMul), ('<', opLessThan),
    ('>', opGreaterThan), ('≤', opLessEq), ('≥', opGreaterEq)]

/-- An operator between two spaces at the head of `s`. -/
def opAt : List Char → Option (BinOp × List Char)
  | ' ' :: c :: ' ' :: s => (opSymbols.lookup c).map fun op => (op, s)
  | _ => none

/-- Another call argument at the head of `s`. -/
def argAt : List Char → Bool
  | ' ' :: c :: _ => isArgStart c
  | _ => false

def digitsValue (ds : List Char) : Nat :=
  ds.foldl (fun v d => 10 * v + (d.toNat - 48)) 0

def readIdent (s : List Char) : Option (Expr × List Char) :=
  match s.span isIdentChar with
  | (name, '"' :: rest) => some (.identExpr name, rest)
  | _ => none

/-- A literal after its `#`: a boolean or an integer that fits in 64 bits. -/
def readHash (s : List Char) : Option (Expr × List Char) :=
  let (ds, rest) := s.span Char.isDigit
  if ds = [] then
    if ['t', 'r', 'u', 'e'] <+: s then some (.boolLiteral true, s.drop 4)
    else if ['f', 'a', 'l', 's', 'e'] <+: s then some (.boolLiteral false, s.drop 5)
    else none
  else if UInt64.size ≤ digitsValue ds then none
  else some (.intLiteral (UInt64.ofNat (digitsValue ds)), rest)

mutual
/-- An expression: an operand, then possibly an operator and an expression. -/
def readExpr : Nat → List Char → Option (Expr × List Char)
  | 0, _ => none
  | n + 1, s => do
    let (x, rest) ← readOperand n s
    match opAt rest with
    | some (op, rest) => do
      let (y, rest) ← readExpr n rest
      return (.binaryExpr x op y, rest)
    | none => return (x, rest)

/-- An expression that is no operator application, or any expression in parentheses. -/
def readOperand : Nat → List Char → Option (Expr × List Char)
  | 0, _ | _ + 1, [] => none
  | n + 1, c :: s =>
    if c = '"' then readIdent s
    else if c = '#' then readHash s
    else if c = '!' then do
      let (x, rest) ← readOperand n s
      return (.derefExpr x, rest)
    else if c = '~' then
      match s with
      | ' ' :: s => do
        let (x, rest) ← readOperand n s
        return (.notExpr x, rest)
      | _ => none
    else if c = '(' then do
      let (e, rest) ← readExpr n s
      match rest with
      | ')' :: rest => return (e, rest)
      | ',' :: ' ' :: rest => readTuple n [e] rest
      | _ => none
    else
      let (m, rest) := (c :: s).span isMethodChar
      if m = [] then none
      else do
        let (args, rest) ← readArgs n rest
        if args.isEmpty then none else return (.callExpr m args, rest)

/-- The arguments of a call, each after a space. -/
def readArgs : Nat → List Char → Option (List Expr × List Char)
  | 0, _ => none
  | n + 1, s =>
    if argAt s then do
      let (a, rest) ← readOperand n s.tail
      let (as, rest) ← readArgs n rest
      return (a :: as, rest)
    else some ([], s)

/-- The elements of a tuple after the first, each after `, `, to the closing parenthesis. -/
def readTuple : Nat → List Expr → List Char → Option (Expr × List Char)
  | 0, _, _ => none
  | n + 1, es, s => do
    let (e, rest) ← readExpr n s
    match rest with
    | ')' :: rest => return (.tupleExpr (es ++ [e]), rest)
    | ',' :: ' ' :: rest => readTuple n (es ++ [e]) rest
    | _ => none
end

def Expr.isBinary : Expr → Bool
  | .binaryExpr .. => true
  | _ => false

def Expr.isTuple : Expr → Bool
  | .tupleExpr _ => true
  | _ => false

/-- An operator application whose left operand is a tuple: its rendering starts with `(`, and
ends with `)` when its right operand's does. -/
def Expr.isTupleHeaded : Expr → Bool
  | .binaryExpr x _ _ => x.isTuple
  | _ => false

/-- The kinds whose rendering has no space outside parentheses. -/
def Expr.isBare : Expr → Bool
  | .identExpr _ | .intLiteral _ | .boolLiteral _ | .derefExpr _ | .tupleExpr _ => true
  | _ => false

def Expr.leadsWith : Expr → Char → Bool
  | .identExpr _, c => c == '"'
  | .intLiteral _, c | .boolLiteral _, c => c == '#'
  | .derefExpr _, c => c == '!'
  | .notExpr _, c => c == '~'
  | .tupleExpr _, c => c == '('
  | .callExpr _ _, c => isMethodChar c
  | .binaryExpr x _ _, c => x.leadsWith c
  | _, _ => false

/-- A node of the readable fragment. Names are made of identifier or method characters, each
operator has a symbol of its own, no operator application is the left operand of another, and
none whose left operand is a tuple is embedded by `addParens`. -/
def ReadableNode : Expr → Prop
  | .identExpr s => s ≠ [] ∧ s ≠ ['_'] ∧ ∀ c ∈ s, isIdentChar c
  | .intLiteral _ | .boolLiteral _ => True
  | .callExpr m args =>
    m ≠ [] ∧ (∀ c ∈ m, isMethodChar c) ∧ args ≠ [] ∧ ∀ a ∈ args, a.isTupleHeaded = false
  | .binaryExpr x op _ => op ∈ declaredOps ∧ op ≠ opAppend ∧ x.isBinary = false
  | .notExpr x | .derefExpr x => x.isTupleHeaded = false
  | .tupleExpr es => 2 ≤ es.length
  | _ => False

def Expr.Readable (e : Expr) : Prop := e.Every ReadableNode

section Eventually

variable {α β γ : Type}

/-- `f n = a` for every fuel `n` from some point on. -/
def Eventually (f : Nat → α) (a : α) : Prop := ∃ k, ∀ n, k ≤ n → f n = a

theorem Eventually.zip {f : Nat → α} {g : Nat → β} {h : Nat → γ} {a : α} {b : β} {c : γ}
    (hf : Eventually f a) (hg : Eventually g b) (step : ∀ n, f n = a → g n = b → h n = c) :
    Eventually h c := by
  obtain ⟨k, hk⟩ := hf
  obtain ⟨k', hk'⟩ := hg
  exact ⟨max k k', fun n hn => step n (hk n (le_of_max_le_left hn)) (hk' n (le_of_max_le_right hn))⟩

theorem Eventually.map {f : Nat → α} {g : Nat → β} {a : α} {b : β} (hf : Eventually f a)
    (step : ∀ n, f n = a → g n = b) : Eventually g b :=
  hf.zip hf fun n h _ => step n h

theorem Eventually.shift {f : Nat → α} {a : α} (h : Eventually (fun n => f (n + 1)) a) :
    Eventually f a := by
  obtain ⟨k, hk⟩ := h
  refine ⟨k + 1, fun n hn => ?_⟩
  obtain ⟨m, rfl⟩ : ∃ m, n = m + 1 := ⟨n - 1, by omega⟩
  exact hk m (by omega)

theorem Eventually.of_succ {f : Nat → α} {a : α} (h : ∀ n, f (n + 1) = a) : Eventually f a :=
  Eventually.shift ⟨0, fun n _ => h n⟩

theorem Eventually.step₂ {f : Nat → α} {g : Nat → β} {g' : Nat → γ} {a : α} {b : β} {c : γ}
    (hg : Eventually g b) (hg' : Eventually g' c) (step : ∀ n, g n = b → g' n = c → f (n + 1) = a) :
    Eventually f a :=
  Eventually.shift (hg.zip hg' step)

theorem Eventually.step {f : Nat → α} {g : Nat → β} {a : α} {b : β} (hg : Eventually g b)
    (step : ∀ n, g n = b → f (n + 1) = a) : Eventually f a :=
  Eventually.shift (hg.map step)

theorem Eventually.unique {f : Nat → α} {a b : α} (ha : Eventually f a) (hb : Eventually f b) :
    a = b := by
  obtain ⟨k, hk⟩ := ha
  obtain ⟨k', hk'⟩ := hb
  rw [← hk (max k k') (le_max_left _ _), hk' (max k k') (le_max_right _ _)]

end Eventually

/-- What may follow a whole expression: the end of the text, `)` or `,`. -/
inductive EndsExpr : List Char → Prop
  | done : EndsExpr []
  | close (r : List Char) : EndsExpr (')' :: r)
  | comma (r : List Char) : EndsExpr (',' :: r)

/-- What may follow an operand: also an operator. -/
inductive EndsOperand : List Char → Prop
  | expr {r : List Char} : EndsExpr r → EndsOperand r
  | op {c : Char} {op : BinOp} (r : List Char) : (c, op) ∈ opSymbols → EndsOperand (' ' :: c :: ' ' :: r)

/-- What may follow a call argument: also the next argument. -/
inductive EndsArg : List Char → Prop
  | operand {r : List Char} : EndsOperand r → EndsArg r
  | next {c : Char} (r : List Char) : isArgStart c → EndsArg (' ' :: c :: r)

theorem EndsExpr.opAt {r : List Char} (h : EndsExpr r) : opAt r = none := by
  cases h <;> rfl

theorem opAt_of_mem {c : Char} {op : BinOp} (h : (c, op) ∈ opSymbols) (r : List Char) :
    opAt (' ' :: c :: ' ' :: r) = some (op, r) := by
  simp only [opSymbols, List.mem_cons, Prod.mk.injEq, List.mem_singleton, List.not_mem_nil,
    or_false] at h
  rcases h with ⟨rfl, rfl⟩ | ⟨rfl, rfl⟩ | ⟨rfl, rfl⟩ | ⟨rfl, rfl⟩ | ⟨rfl, rfl⟩ | ⟨rfl, rfl⟩ |
    ⟨rfl, rfl⟩ | ⟨rfl, rfl⟩ <;> rfl

theorem EndsOperand.argAt {r : List Char} (h : EndsOperand r) : argAt r = false := by
  rcases h with (_ | _ | _) | ⟨r, h⟩
  any_goals rfl
  simp only [opSymbols, List.mem_cons, Prod.mk.injEq, List.mem_singleton, List.not_mem_nil,
    or_false] at h
  rcases h with ⟨rfl, rfl⟩ | ⟨rfl, rfl⟩ | ⟨rfl, rfl⟩ | ⟨rfl, rfl⟩ | ⟨rfl, rfl⟩ | ⟨rfl, rfl⟩ |
    ⟨rfl, rfl⟩ | ⟨rfl, rfl⟩ <;> rfl

theorem EndsArg.head_not_digit {r : List Char} (h : EndsArg r) : ∀ c ∈ r.head?, c.isDigit = false := by
  rcases h with ((_ | _ | _) | _) | _ <;> simp

theorem span_append {p : Char → Bool} {xs ys : List Char} (hx : ∀ c ∈ xs, p c)
    (hy : ∀ c ∈ ys.head?, p c = false) : (xs ++ ys).span p = (xs, ys) := by
  rw [List.span_eq_take_drop, List.takeWhile_append_of_pos hx, List.dropWhile_append_of_pos hx]
  cases ys with
  | nil => simp
  | cons c ys => simp [hy c rfl]

theorem span_of_head {p : Char → Bool} {c : Char} (h : p c = false) (t : List Char) :
    (c :: t).span p = ([], c :: t) :=
  @span_append p [] (c :: t) (by simp) fun _ hx => by cases hx; exact h

theorem digitChar_spec : ∀ k < 10, (Nat.digitChar k).toNat - 48 = k ∧ (Nat.digitChar k).isDigit := by
  decide

theorem toDigitsCore_spec (fuel : Nat) : ∀ (n : Nat) (ds : List Char), n < fuel →
    ∃ ds', Nat.toDigitsCore 10 fuel n ds = ds' ++ ds ∧ ds' ≠ [] ∧ (∀ c ∈ ds', c.isDigit) ∧
      digitsValue ds' = n := by
  induction fuel with
  | zero => intro n _ h; omega
  | succ fuel ih =>
    intro n ds h
    have digit := digitChar_spec (n % 10) (Nat.mod_lt _ (by omega))
    by_cases last : n / 10 = 0
    · refine ⟨[Nat.digitChar (n % 10)], by simp [Nat.toDigitsCore, last], by simp, by simp [digit.2], ?_⟩
      simp [digitsValue, digit.1]
      omega
    · obtain ⟨ds', h', -, digits, value⟩ := ih (n / 10) (Nat.digitChar (n % 10) :: ds) (by omega)
      refine ⟨ds' ++ [Nat.digitChar (n % 10)], by simp [Nat.toDigitsCore, last, h'], by simp, ?_, ?_⟩
      · simpa [or_imp, forall_and, digit.2] using digits
      · simp only [digitsValue, List.foldl_append] at value ⊢
        simp [value, digit.1]
        omega

theorem decimal_spec (n : Nat) :
    decimal n ≠ [] ∧ (∀ c ∈ decimal n, c.isDigit) ∧ digitsValue (decimal n) = n := by
  obtain ⟨ds, h, spec⟩ := toDigitsCore_spec (n + 1) n [] (by omega)
  rw [List.append_nil] at h
  rw [decimal, Nat.toDigits, h]
  exact spec

theorem isMethodChar_not_mem {c : Char} (h : isMethodChar c) :
    c ∉ ['"', '#', '!', '~', '(', '{', ' ', '\n'] := by
  intro hc
  simp only [List.mem_cons, List.mem_singleton, List.not_mem_nil, or_false] at hc
  rcases hc with rfl | rfl | rfl | rfl | rfl | rfl | rfl | rfl <;> exact absurd h (by decide)

theorem addParens_cases (s : List Char) : addParens s = s ∨ addParens s = '(' :: (s ++ [')']) := by
  unfold addParens
  split_ifs
  · exact .inl rfl
  · exact .inr rfl

theorem addParens_ne_self {c : Char} {t : List Char} (hs : ' ' ∈ c :: t) (hc : c ≠ '(' ∧ c ≠ '{') :
    addParens (c :: t) ≠ c :: t := by
  rw [addParens, if_neg]
  · intro h
    have := congrArg List.length h
    simp at this
    omega
  · simp [hs, isWellBalanced, List.isPrefixOf, hc.1.symm, hc.2.symm]

theorem Expr.isBinary_of_isBare {e : Expr} (h : e.isBare) : e.isBinary = false := by
  cases e <;> simp_all [Expr.isBare, Expr.isBinary]

theorem Expr.isArgStart_of_leadsWith {e : Expr} {c : Char} (hb : e.isBare) (h : e.leadsWith c) :
    isArgStart c := by
  cases e <;> simp_all [Expr.isBare, Expr.leadsWith, isArgStart]

theorem Expr.leadsWith_ne {e : Expr} {c : Char} (hb : e.isBinary = false) (ht : e.isTuple = false)
    (h : e.leadsWith c) : c ≠ '(' ∧ c ≠ '{' := by
  cases e <;> simp [Expr.isBinary, Expr.isTuple, Expr.leadsWith] at hb ht h
  case callExpr => have := isMethodChar_not_mem h; simp_all
  all_goals subst h; decide

/-- Read as an operand, the rendering `s` of `e` gives `e` back and leaves what follows. -/
def ReadsAsOperand (e : Expr) (s : List Char) : Prop :=
  ∀ r, EndsArg r → (e.isBare = false → EndsOperand r) →
    Eventually (readOperand · (s ++ r)) (some (e, r))

/-- What the reader makes of `s`, the rendering of `e`, in each place a rendering stands. -/
structure ReadsBack (e : Expr) (s : List Char) : Prop where
  newline : '\n' ∉ s
  head : ∃ c t, s = c :: t ∧ e.leadsWith c
  bare : e.isTupleHeaded = false → addParens s = s → e.isBare
  expr : ∀ r, EndsExpr r → Eventually (readExpr · (s ++ r)) (some (e, r))
  operand : e.isBinary = false → ReadsAsOperand e s

theorem readExpr_of_operand {e : Expr} {s : List Char} (operand : ReadsAsOperand e s)
    (r : List Char) (hr : EndsExpr r) : Eventually (readExpr · (s ++ r)) (some (e, r)) :=
  (operand r (.operand (.expr hr)) fun _ => .expr hr).step fun n h => by simp [readExpr, h, hr.opAt]

theorem newline_not_mem_addParens {s : List Char} (h : '\n' ∉ s) : '\n' ∉ addParens s := by
  rcases addParens_cases s with hp | hp <;> simp [hp, h]

theorem ReadsBack.embedded {e : Expr} {s : List Char} (h : ReadsBack e s)
    (ht : e.isTupleHeaded = false) {r : List Char} (hr : EndsArg r) :
    Eventually (readOperand · (addParens s ++ r)) (some (e, r)) := by
  rcases addParens_cases s with hp | hp
  · have hb := h.bare ht hp
    rw [hp]
    exact h.operand (Expr.isBinary_of_isBare hb) r hr (by simp [hb])
  · rw [hp]
    exact (h.expr (')' :: r) (.close r)).step fun n hn => by simp [readOperand, hn]

theorem ReadsBack.embedded_head {e : Expr} {s : List Char} (h : ReadsBack e s)
    (ht : e.isTupleHeaded = false) : ∃ c t, addParens s = c :: t ∧ isArgStart c := by
  rcases addParens_cases s with hp | hp
  · obtain ⟨c, t, rfl, hc⟩ := h.head
    exact ⟨c, t, hp, Expr.isArgStart_of_leadsWith (h.bare ht hp) hc⟩
  · exact ⟨'(', _, hp, rfl⟩

theorem quote_of_ne {s : List Char} (h : s ≠ ['_']) : quote s = '"' :: (s ++ ['"']) := if_neg h

theorem readsBack_ident {name : List Char} (h : ReadableNode (.identExpr name)) :
    ReadsBack (.identExpr name) (quote name) := by
  obtain ⟨-, notBlank, chars⟩ := h
  have stop : ∀ r, ∀ c ∈ ('"' :: r).head?, isIdentChar c = false := fun _ _ hc => by cases hc; rfl
  have operand : ReadsAsOperand (.identExpr name) (quote name) := fun r _ _ => .of_succ fun n => by
    rw [quote_of_ne notBlank]
    simp [-List.span_eq_take_drop, readOperand, readIdent, span_append chars (stop r)]
  refine ⟨?_, ⟨'"', _, quote_of_ne notBlank, rfl⟩, fun _ _ => rfl, readExpr_of_operand operand,
    fun _ => operand⟩
  rw [quote_of_ne notBlank]
  simpa using fun hn => absurd (chars _ hn) (by decide)

theorem readsBack_int (v : UInt64) : ReadsBack (.intLiteral v) ('#' :: decimal v.toNat) := by
  obtain ⟨nonempty, digits, value⟩ := decimal_spec v.toNat
  have fits : UInt64.ofNat v.toNat = v := UInt64.toNat.inj (UInt64.toNat_ofNat_of_lt v.toNat_lt_size)
  have operand : ReadsAsOperand (.intLiteral v) ('#' :: decimal v.toNat) := fun r hr _ => .of_succ fun n => by
    simp [-List.span_eq_take_drop, readOperand, readHash, span_append digits hr.head_not_digit,
      nonempty, value, fits, v.toNat_lt_size]
  refine ⟨?_, ⟨'#', _, rfl, rfl⟩, fun _ _ => rfl, readExpr_of_operand operand, fun _ => operand⟩
  simpa using fun hn => absurd (digits _ hn) (by decide)

theorem readsBack_bool (b : Bool) :
    ReadsBack (.boolLiteral b) (if b then "#true".toList else "#false".toList) := by
  have operand : ReadsAsOperand (.boolLiteral b) (if b then "#true".toList else "#false".toList) :=
    fun r _ _ => .of_succ fun n => by
      cases b
      · rw [if_neg (by decide), show "#false".toList = ['#', 'f', 'a', 'l', 's', 'e'] from rfl]
        simp [-List.span_eq_take_drop, readOperand, readHash, span_of_head (show Char.isDigit 'f' = false from rfl)]
      · rw [if_pos rfl, show "#true".toList = ['#', 't', 'r', 'u', 'e'] from rfl]
        simp [-List.span_eq_take_drop, readOperand, readHash, span_of_head (show Char.isDigit 't' = false from rfl)]
  refine ⟨by cases b <;> decide, by cases b <;> exact ⟨'#', _, rfl, rfl⟩, fun _ _ => rfl,
    readExpr_of_operand operand, fun _ => operand⟩

theorem readsBack_deref {x : Expr} {sx : List Char} (hx : ReadsBack x sx)
    (h : x.isTupleHeaded = false) : ReadsBack (.derefExpr x) ('!' :: addParens sx) := by
  have operand : ReadsAsOperand (.derefExpr x) ('!' :: addParens sx) := fun r hr _ =>
    (hx.embedded h hr).step fun n hn => by simp [readOperand, hn]
  exact ⟨by simpa using newline_not_mem_addParens hx.newline, ⟨'!', _, rfl, rfl⟩, fun _ _ => rfl,
    readExpr_of_operand operand, fun _ => operand⟩

theorem readsBack_not {x : Expr} {sx : List Char} (hx : ReadsBack x sx)
    (h : x.isTupleHeaded = false) : ReadsBack (.notExpr x) ('~' :: ' ' :: addParens sx) := by
  have operand : ReadsAsOperand (.notExpr x) ('~' :: ' ' :: addParens sx) := fun r hr _ =>
    (hx.embedded h hr).step fun n hn => by simp [readOperand, hn]
  refine ⟨by simpa using newline_not_mem_addParens hx.newline, ⟨'~', _, rfl, rfl⟩, fun _ hp => ?_,
    readExpr_of_operand operand, fun _ => operand⟩
  exact absurd hp (addParens_ne_self (by simp) (by decide))

theorem binaryCoq_of_lookup {op : BinOp} {c : Char} (h : coqBinOp.lookup op = some [c])
    (x y : List Char) : binaryCoq x op y = some (x ++ ' ' :: c :: ' ' :: y) := by
  simp [binaryCoq, h, show " ".toList = [' '] from rfl]

theorem binaryCoq_symbol {op : BinOp} (h : op ∈ declaredOps) (ne : op ≠ opAppend) :
    ∃ c, (c, op) ∈ opSymbols ∧ ∀ x y, binaryCoq x op y = some (x ++ ' ' :: c :: ' ' :: y) := by
  simp only [declaredOps, List.mem_cons, List.mem_singleton, List.not_mem_nil, or_false] at h
  rcases h with rfl | rfl | rfl | rfl | rfl | rfl | rfl | rfl | rfl
  all_goals first | exact absurd rfl ne | exact ⟨_, by decide, binaryCoq_of_lookup rfl⟩

theorem readsBack_binary {x y : Expr} {op : BinOp} {sx sy : List Char} {c : Char}
    (hx : ReadsBack x sx) (hy : ReadsBack y sy) (left : x.isBinary = false)
    (hc : (c, op) ∈ opSymbols) : ReadsBack (.binaryExpr x op y) (sx ++ ' ' :: c :: ' ' :: sy) := by
  obtain ⟨c0, t0, hs0, lead⟩ := hx.head
  have symbol : c ≠ '\n' := by
    simp only [opSymbols, List.mem_cons, Prod.mk.injEq, List.mem_singleton, List.not_mem_nil,
      or_false] at hc
    rcases hc with ⟨rfl, rfl⟩ | ⟨rfl, rfl⟩ | ⟨rfl, rfl⟩ | ⟨rfl, rfl⟩ | ⟨rfl, rfl⟩ | ⟨rfl, rfl⟩ |
      ⟨rfl, rfl⟩ | ⟨rfl, rfl⟩ <;> decide
  refine ⟨by simp [hx.newline, hy.newline, symbol.symm], ⟨c0, _, by rw [hs0, List.cons_append], lead⟩,
    fun ht hp => ?_, fun r hr => ?_, fun hb => absurd hb (by simp [Expr.isBinary])⟩
  · rw [hs0, List.cons_append] at hp
    exact absurd hp (addParens_ne_self (by simp) (Expr.leadsWith_ne left ht lead))
  · exact (hx.operand left _ (.operand (.op (sy ++ r) hc)) fun _ => .op _ hc).step₂ (hy.expr r hr)
      fun n h1 h2 => by simp [readExpr, h1, opAt_of_mem hc, h2]

theorem ReadsBack.newline_of_forall₂ : ∀ {es : List Expr} {ss : List (List Char)},
    List.Forall₂ ReadsBack es ss → ∀ s ∈ ss, '\n' ∉ s
  | _, _, .nil => by simp
  | _, _, .cons h hs => by simpa using ⟨h.newline, ReadsBack.newline_of_forall₂ hs⟩

/-- The arguments of a call as `CallExpr.Coq` prints them after the method name. -/
def spacedArgs (ss : List (List Char)) : List Char := (ss.map addParens).flatMap (' ' :: ·)

@[simp] theorem spacedArgs_nil : spacedArgs [] = [] := rfl

@[simp] theorem spacedArgs_cons (s : List Char) (ss : List (List Char)) :
    spacedArgs (s :: ss) = ' ' :: (addParens s ++ spacedArgs ss) := by
  simp [spacedArgs]

theorem callCoq_eq (m : List Char) (ss : List (List Char)) : callCoq m ss = m ++ spacedArgs ss := by
  induction ss generalizing m with
  | nil => simp [callCoq]
  | cons s ss ih =>
    have tail := ih (addParens s)
    simp only [callCoq, List.map_cons, join_cons_cons] at tail ⊢
    rw [tail]
    simp [show " ".toList = [' '] from rfl]

theorem newline_not_mem_spacedArgs : ∀ {ss : List (List Char)}, (∀ s ∈ ss, '\n' ∉ s) →
    '\n' ∉ spacedArgs ss
  | [], _ => by simp
  | s :: ss, h => by
    simp only [spacedArgs_cons, List.mem_cons, List.mem_append, not_or]
    exact ⟨by decide, newline_not_mem_addParens (h s (.head _)),
      newline_not_mem_spacedArgs fun t ht => h t (.tail _ ht)⟩

theorem readArgs_embedded : ∀ {args : List Expr} {ss : List (List Char)},
    List.Forall₂ ReadsBack args ss → (∀ a ∈ args, a.isTupleHeaded = false) →
    ∀ {r : List Char}, EndsOperand r →
      EndsArg (spacedArgs ss ++ r) ∧ Eventually (readArgs · (spacedArgs ss ++ r)) (some (args, r))
  | [], [], .nil, _, _, hr => ⟨.operand hr, .of_succ fun n => by simp [readArgs, hr.argAt]⟩
  | a :: args, s :: ss, .cons ha hs, ht, r, hr => by
    have ha' := ht a (List.mem_cons_self a args)
    obtain ⟨c, t, hp, hc⟩ := ha.embedded_head ha'
    obtain ⟨rest, tail⟩ := readArgs_embedded hs (fun b hb => ht b (List.mem_cons_of_mem a hb)) hr
    have next : argAt (' ' :: (addParens s ++ (spacedArgs ss ++ r))) := by
      rw [hp]
      exact hc
    refine ⟨by simpa [hp] using EndsArg.next _ hc, (ha.embedded ha' rest).step₂ tail fun n h1 h2 => ?_⟩
    simp [readArgs, next, h1, h2]

theorem readsBack_call {m : List Char} {args : List Expr} {ss : List (List Char)}
    (h : ReadableNode (.callExpr m args)) (hargs : List.Forall₂ ReadsBack args ss) :
    ReadsBack (.callExpr m args) (callCoq m ss) := by
  obtain ⟨named, chars, nonempty, ht⟩ := h
  obtain ⟨c, m', rfl⟩ := List.exists_cons_of_ne_nil named
  obtain ⟨a, args', s, ss', rfl, rfl⟩ : ∃ a args' s ss', args = a :: args' ∧ ss = s :: ss' := by
    cases hargs with
    | nil => exact absurd rfl nonempty
    | cons => exact ⟨_, _, _, _, rfl, rfl⟩
  have special := isMethodChar_not_mem (chars c (List.mem_cons_self c m'))
  simp only [List.mem_cons, List.mem_singleton, List.not_mem_nil, or_false, not_or] at special
  rw [callCoq_eq]
  have operand : ReadsAsOperand (.callExpr (c :: m') (a :: args')) (c :: m' ++ spacedArgs (s :: ss')) :=
    fun r _ hr => by
      obtain ⟨-, read⟩ := readArgs_embedded hargs ht (hr rfl)
      refine read.step fun n h1 => ?_
      have span : (c :: m' ++ (spacedArgs (s :: ss') ++ r)).span isMethodChar =
          (c :: m', spacedArgs (s :: ss') ++ r) :=
        span_append chars fun _ hx => by cases hx; rfl
      simp only [List.cons_append, List.append_assoc] at span ⊢
      simp [-List.span_eq_take_drop, -spacedArgs_cons, readOperand, special, span, h1]
  refine ⟨?_, ⟨c, _, rfl, chars c (List.mem_cons_self c m')⟩, fun _ hp => ?_,
    readExpr_of_operand operand, fun _ => operand⟩
  · simp only [List.cons_append, List.mem_cons, List.mem_append, not_or]
    exact ⟨Ne.symm special.2.2.2.2.2.2.2, fun hm => absurd (chars _ (.tail _ hm)) (by decide),
      newline_not_mem_spacedArgs (ReadsBack.newline_of_forall₂ hargs)⟩
  · exact absurd hp (addParens_ne_self (by simp) ⟨special.2.2.2.2.1, special.2.2.2.2.2.1⟩)

theorem not_mem_join {c : Char} {sep : List Char} (hsep : c ∉ sep) :
    ∀ {ss : List (List Char)}, (∀ s ∈ ss, c ∉ s) → c ∉ join ss sep
  | [], _ => by simp
  | [s], h => by simpa using h s (.head _)
  | s :: s' :: ss, h => by
    simp only [join_cons_cons, List.mem_append, not_or]
    exact ⟨⟨h s (.head _), hsep⟩, not_mem_join hsep fun t ht => h t (.tail _ ht)⟩

theorem readTuple_join : ∀ {es : List Expr} {ss : List (List Char)},
    List.Forall₂ ReadsBack es ss → es ≠ [] → ∀ (acc : List Expr) (r : List Char),
      Eventually (readTuple · acc (join ss [',', ' '] ++ ')' :: r)) (some (.tupleExpr (acc ++ es), r))
  | _, _, .nil, ne, _, _ => absurd rfl ne
  | _, _, .cons h .nil, _, acc, r =>
    (h.expr (')' :: r) (.close r)).step fun n h1 => by simp [readTuple, h1]
  | e :: e' :: es, _ :: s' :: ss, .cons h (.cons h' hs), _, acc, r =>
    (h.expr (',' :: ' ' :: (join (s' :: ss) [',', ' '] ++ ')' :: r)) (.comma _)).step₂
      (readTuple_join (.cons h' hs) (List.cons_ne_nil e' es) (acc ++ [e]) r)
      fun n h1 h2 => by simp [readTuple, h1, h2]

theorem readsBack_tuple {es : List Expr} {ss : List (List Char)} (h : ReadableNode (.tupleExpr es))
    (hes : List.Forall₂ ReadsBack es ss) :
    ReadsBack (.tupleExpr es) ('(' :: (join ss [',', ' '] ++ [')'])) := by
  obtain ⟨e, e', es', s, s', ss', he, hrest, rfl, rfl⟩ : ∃ e e' es' s s' ss', ReadsBack e s ∧
      List.Forall₂ ReadsBack (e' :: es') (s' :: ss') ∧ es = e :: e' :: es' ∧ ss = s :: s' :: ss' := by
    match es, ss, hes, h with
    | _ :: _ :: _, _ :: _ :: _, .cons he hrest, _ => exact ⟨_, _, _, _, _, _, he, hrest, rfl, rfl⟩
  have operand : ReadsAsOperand (.tupleExpr (e :: e' :: es'))
      ('(' :: (join (s :: s' :: ss') [',', ' '] ++ [')'])) := fun r _ _ =>
    (he.expr (',' :: ' ' :: (join (s' :: ss') [',', ' '] ++ ')' :: r)) (.comma _)).step₂
      (readTuple_join hrest (List.cons_ne_nil _ _) [e] r) fun n h1 h2 => by simp [readOperand, h1, h2]
  refine ⟨?_, ⟨'(', _, rfl, rfl⟩, fun _ _ => rfl, readExpr_of_operand operand, fun _ => operand⟩
  have := @not_mem_join '\n' [',', ' '] (by decide) _ (ReadsBack.newline_of_forall₂ (.cons he hrest))
  simpa using this

mutual
theorem Expr.readsBack : ∀ {e : Expr}, e.Readable → ∃ s, e.coq = some s ∧ ReadsBack e s
  | .identExpr _, h => ⟨_, rfl, readsBack_ident h.1⟩
  | .intLiteral _, _ => ⟨_, rfl, readsBack_int _⟩
  | .boolLiteral _, _ => ⟨_, rfl, readsBack_bool _⟩
  | .callExpr _ _, h => by
    obtain ⟨ss, hss, hr⟩ := Expr.readsBackList h.2
    exact ⟨_, by simp [Expr.coq, hss], readsBack_call h.1 hr⟩
  | .binaryExpr _ _ _, h => by
    obtain ⟨sx, hx, rx⟩ := Expr.readsBack h.2.1
    obtain ⟨sy, hy, ry⟩ := Expr.readsBack h.2.2
    obtain ⟨c, hc, hb⟩ := binaryCoq_symbol h.1.1 h.1.2.1
    exact ⟨_, by simp [Expr.coq, hx, hy, hb], readsBack_binary rx ry h.1.2.2 hc⟩
  | .notExpr _, h => by
    obtain ⟨sx, hx, rx⟩ := Expr.readsBack h.2
    exact ⟨_, by simp [Expr.coq, hx], readsBack_not rx h.1⟩
  | .derefExpr _, h => by
    obtain ⟨sx, hx, rx⟩ := Expr.readsBack h.2
    exact ⟨_, by simp [Expr.coq, hx], readsBack_deref rx h.1⟩
  | .tupleExpr _, h => by
    obtain ⟨ss, hss, hr⟩ := Expr.readsBackList h.2
    have flat := @not_mem_join '\n' [',', ' '] (by decide) _ (ReadsBack.newline_of_forall₂ hr)
    refine ⟨_, ?_, readsBack_tuple h.1 hr⟩
    simp [Expr.coq, hss, tupleCoq_eq, shiftLines_of_not_mem flat]
  | .gallinaIdent _, h | .gallinaString _, h | .structFieldAccessExpr _ _ _ _, h
  | .returnExpr _, h | .structLiteral _ _ _, h | .unitLiteral, h | .int32Literal _, h
  | .stringLiteral _, h | .blockExpr _, h | .refExpr _, h | .storeStmt _ _, h | .ifExpr _ _ _, h
  | .hashTableInsert _, h | .forLoopExpr (.mk _ _) _ _ _, h | .mapIterExpr _ _ _ _, h | .spawnExpr _, h
  | .typeIdent _, h | .structName _, h | .mapType _, h | .sliceType _, h | .tupleType _, h
  | .ptrType _, h => h.1.elim

theorem Expr.readsBackList : ∀ {es : List Expr}, Expr.EveryList ReadableNode es →
    ∃ ss, Expr.coqList es = some ss ∧ List.Forall₂ ReadsBack es ss
  | [], _ => ⟨[], rfl, .nil⟩
  | _ :: _, h => by
    obtain ⟨s, hs, r⟩ := Expr.readsBack h.1
    obtain ⟨ss, hss, rs⟩ := Expr.readsBackList h.2
    exact ⟨s :: ss, by simp [Expr.coqList, hs, hss], .cons r rs⟩
end

end Goose.Coq
