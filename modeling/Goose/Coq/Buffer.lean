import Goose.Coq.Text

/-! `buffer`, the indenting pretty printer in which every multi-line rendering is built.
An operation that can panic returns `none`: `make` and `strings.Repeat` panic on a negative
count. From a buffer at a non-negative level each operation has a closed form, stated with
`lineAt`: the line that `AddLine` appends at that level. -/

namespace Goose.Coq

structure Buffer where
  lines : List (List Char)
  indentLevel : Int

namespace Buffer

/-- `var pp buffer`. -/
def empty : Buffer := ⟨[], 0⟩

def indentation (pp : Buffer) : Option (List Char) :=
  if pp.indentLevel < 0 then none else some (List.replicate pp.indentLevel.toNat ' ')

def appendLine (pp : Buffer) (line : List Char) : Buffer := { pp with lines := pp.lines ++ [line] }

/-- `AddLine`. `Add` is `AddLine` of the formatted text, so it is not a definition of its own. -/
def addLine (pp : Buffer) (line : List Char) : Option Buffer :=
  if line = [] then some (pp.appendLine [])
  else do
    let ind ← pp.indentation
    let body ← Coq.indent pp.indentLevel line
    return pp.appendLine (ind ++ body)

def indent (pp : Buffer) (spaces : Int) : Buffer :=
  { pp with indentLevel := pp.indentLevel + spaces }

def block (pp : Buffer) (pre s : List Char) : Option Buffer := do
  let body ← Coq.indent pre.length s
  let pp ← pp.addLine (pre ++ body)
  return pp.indent pre.length

def build (pp : Buffer) : List Char := join pp.lines ['\n']

def addComment (pp : Buffer) (c : List Char) : Option Buffer :=
  if c = [] then some pp
  else do
    let pp ← pp.block "(* ".toList (c ++ " *)".toList)
    return pp.indent (-("(* ".toList.length : Int))

/-- A loop that adds one formatted line per element. -/
def addLines (pp : Buffer) : List (List Char) → Option Buffer
  | [] => some pp
  | l :: ls => do
    let pp ← pp.addLine l
    pp.addLines ls

end Buffer

/-- `flowBranch`, with the expression `e` already rendered. -/
def flowBranch (pp : Buffer) (pre e suffix : List Char) : Option Buffer :=
  let code := e ++ suffix
  if '\n' ∉ code then do
    let pp ← pp.block (pre ++ " ".toList) code
    return pp.indent (-((pre.length : Int) + 1))
  else do
    let pp ← pp.addLine pre
    let pp ← (pp.indent 2).addLine code
    return pp.indent (-2)

/-- The line that `AddLine(t)` appends at indentation level `k`. -/
def lineAt (k : Nat) (t : List Char) : List Char :=
  if t = [] then [] else List.replicate k ' ' ++ shiftLines k t

/-- What `AddComment(c)` writes, before the indentation of its level. -/
def commentText (c : List Char) : List Char := "(* ".toList ++ shiftLines 3 (c ++ " *)".toList)

/-- The lines `flowBranch` adds at level `k` for the code `code`. -/
def branchLines (k : Nat) (pre code : List Char) : List (List Char) :=
  if '\n' ∉ code then [lineAt k (pre ++ " ".toList ++ code)] else [lineAt k pre, lineAt (k + 2) code]

namespace Buffer

variable (ls : List (List Char)) {k : Int}

@[simp] theorem empty_eq : empty = ⟨[], 0⟩ := rfl

@[simp] theorem build_mk : (⟨ls, k⟩ : Buffer).build = join ls ['\n'] := rfl

@[simp] theorem indent_mk (d : Int) : (⟨ls, k⟩ : Buffer).indent d = ⟨ls, k + d⟩ := rfl

@[simp] theorem addLine_mk (hk : 0 ≤ k) (t : List Char) :
    (⟨ls, k⟩ : Buffer).addLine t = some ⟨ls ++ [lineAt k.toNat t], k⟩ := by
  have level : ((k.toNat : Nat) : Int) = k := Int.toNat_of_nonneg hk
  by_cases ht : t = []
  · simp [addLine, appendLine, lineAt, ht]
  · have nonneg : ¬ k < 0 := by omega
    have shifted := indent_of_nat k.toNat t
    rw [level] at shifted
    simp [addLine, appendLine, lineAt, ht, indentation, nonneg, shifted]

@[simp] theorem block_mk (hk : 0 ≤ k) (pre s : List Char) :
    (⟨ls, k⟩ : Buffer).block pre s =
      some ⟨ls ++ [lineAt k.toNat (pre ++ shiftLines pre.length s)], k + pre.length⟩ := by
  simp [block, indent_of_nat, hk]

@[simp] theorem addComment_mk (hk : 0 ≤ k) (c : List Char) :
    (⟨ls, k⟩ : Buffer).addComment c =
      some ⟨if c = [] then ls else ls ++ [lineAt k.toNat (commentText c)], k⟩ := by
  by_cases hc : c = [] <;> simp [addComment, hc, hk, commentText, Int.add_neg_cancel_right]

@[simp] theorem addLines_mk (hk : 0 ≤ k) : ∀ (ls ts : List (List Char)),
    (⟨ls, k⟩ : Buffer).addLines ts = some ⟨ls ++ ts.map (lineAt k.toNat), k⟩
  | ls, [] => by simp [addLines]
  | ls, t :: ts => by simp [addLines, hk, addLines_mk hk (ls ++ [lineAt k.toNat t]) ts]

end Buffer

@[simp] theorem flowBranch_mk (ls : List (List Char)) {k : Int} (hk : 0 ≤ k) (pre e suffix : List Char) :
    flowBranch ⟨ls, k⟩ pre e suffix = some ⟨ls ++ branchLines k.toNat pre (e ++ suffix), k⟩ := by
  have hk2 : 0 ≤ k + 2 := by omega
  have level : (k + 2).toNat = k.toNat + 2 := by omega
  by_cases hn : '\n' ∈ e ++ suffix
  · simp [flowBranch, branchLines, hn, hk, hk2, level, Int.add_neg_cancel_right]
  · simp [flowBranch, branchLines, hn, hk, shiftLines_of_not_mem hn]
    omega

end Goose.Coq
