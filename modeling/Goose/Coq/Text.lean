import Mathlib.Data.List.Basic

/-! Go strings are modelled as lists of characters. Every prefix whose `len` the printer
takes is ASCII, so its byte length is its number of characters. `indent` is the printer's
re-indentation of a multi-line rendering; `shiftLines` says what it does character by
character. -/

namespace Goose.Coq

/-- `strings.Join(xs, sep)`. -/
def join (xs : List (List Char)) (sep : List Char) : List Char := sep.intercalate xs

@[simp] theorem join_nil (sep : List Char) : join [] sep = [] := rfl

@[simp] theorem join_single (x sep : List Char) : join [x] sep = x := by
  simp [join, List.intercalate]

@[simp] theorem join_cons_cons (x y : List Char) (xs : List (List Char)) (sep : List Char) :
    join (x :: y :: xs) sep = x ++ sep ++ join (y :: xs) sep := by
  simp [join, List.intercalate]

theorem join_cons_append (x y : List Char) (xs : List (List Char)) (sep : List Char) :
    join ((x ++ y) :: xs) sep = x ++ join (y :: xs) sep := by
  cases xs <;> simp

@[simp] theorem join_cons_char (c : Char) (x : List Char) (xs : List (List Char)) (sep : List Char) :
    join ((c :: x) :: xs) sep = c :: join (x :: xs) sep :=
  join_cons_append [c] x xs sep

/-- Whether a line with content starts at the head of `s`. -/
def opensLine : List Char → Bool
  | [] => false
  | c :: _ => c != '\n'

/-- `s` with `n` spaces inserted right after each newline that is followed by a character
other than a newline. -/
def shiftLines (n : Nat) : List Char → List Char
  | [] => []
  | c :: s =>
    if c = '\n' ∧ opensLine s = true then c :: (List.replicate n ' ' ++ shiftLines n s)
    else c :: shiftLines n s

/-- The loop of `indent`: each line after the first gets the indentation unless it is empty. -/
def indentLines (indentation : List Char) : List (List Char) → List (List Char)
  | [] => []
  | first :: lines => first :: lines.map fun line => if line = [] then [] else indentation ++ line

/-- `indent(spaces, s)`. `strings.Repeat` panics on a negative count. -/
def indent (spaces : Int) (s : List Char) : Option (List Char) :=
  if spaces < 0 then none
  else some (join (indentLines (List.replicate spaces.toNat ' ') (s.splitOn '\n')) ['\n'])

theorem splitOn_newline_cons (c : Char) (s : List Char) :
    (c :: s).splitOn '\n' =
      if c = '\n' then [] :: s.splitOn '\n' else (s.splitOn '\n').modifyHead (c :: ·) := by
  simp only [List.splitOn, List.splitOnP_cons, beq_iff_eq]

theorem splitOn_newline_head (s : List Char) :
    ∃ l ls, s.splitOn '\n' = l :: ls ∧ (l = [] ↔ opensLine s = false) := by
  cases s with
  | nil => exact ⟨[], [], rfl, by simp [opensLine]⟩
  | cons c s =>
    obtain ⟨l, ls, h⟩ := List.exists_cons_of_ne_nil (List.splitOnP_ne_nil (· == '\n') s)
    by_cases hc : c = '\n'
    · exact ⟨[], l :: ls, by simp [splitOn_newline_cons, hc, List.splitOn, h], by simp [opensLine, hc]⟩
    · exact ⟨c :: l, ls, by simp [splitOn_newline_cons, hc, List.splitOn, h], by simp [opensLine, hc]⟩

theorem join_indentLines (n : Nat) : ∀ s : List Char,
    join (indentLines (List.replicate n ' ') (s.splitOn '\n')) ['\n'] = shiftLines n s
  | [] => rfl
  | c :: s => by
    have ih := join_indentLines n s
    obtain ⟨l, ls, hs, hl⟩ := splitOn_newline_head s
    rw [hs] at ih
    by_cases hc : c = '\n'
    · by_cases hempty : l = []
      · simp_all [splitOn_newline_cons, indentLines, shiftLines]
      · have hopen : opensLine s = true := by simpa [hempty] using hl
        simp_all [splitOn_newline_cons, indentLines, shiftLines, join_cons_append]
    · simp_all [splitOn_newline_cons, indentLines, shiftLines, join_cons_append]

theorem indent_of_nat (n : Nat) (s : List Char) : indent n s = some (shiftLines n s) := by
  have nonneg : ¬ (n : Int) < 0 := by omega
  simp [indent, nonneg, join_indentLines]

@[simp] theorem opensLine_cons (c : Char) (s : List Char) : opensLine (c :: s) = (c != '\n') := rfl

theorem shiftLines_cons_shift {n : Nat} {c : Char} {s : List Char} (h : c = '\n' ∧ opensLine s = true) :
    shiftLines n (c :: s) = c :: (List.replicate n ' ' ++ shiftLines n s) := if_pos h

theorem shiftLines_cons_keep {n : Nat} {c : Char} {s : List Char} (h : ¬(c = '\n' ∧ opensLine s = true)) :
    shiftLines n (c :: s) = c :: shiftLines n s := if_neg h

@[simp] theorem opensLine_shiftLines (n : Nat) (s : List Char) :
    opensLine (shiftLines n s) = opensLine s := by
  cases s with
  | nil => rfl
  | cons c s =>
    by_cases h : c = '\n' ∧ opensLine s = true
    · rw [shiftLines_cons_shift h]; rfl
    · rw [shiftLines_cons_keep h]; rfl

theorem shiftLines_of_not_mem {n : Nat} : ∀ {s : List Char}, '\n' ∉ s → shiftLines n s = s
  | [], _ => rfl
  | c :: s, h => by
    simp only [List.mem_cons, not_or] at h
    rw [shiftLines_cons_keep (fun h' => h.1 h'.1.symm), shiftLines_of_not_mem h.2]

theorem shiftLines_append {n : Nat} : ∀ {a : List Char} (b : List Char),
    a.getLast? ≠ some '\n' → shiftLines n (a ++ b) = shiftLines n a ++ shiftLines n b
  | [], _, _ => rfl
  | [c], b, h => by
    have hc : c ≠ '\n' := by simpa using h
    rw [List.singleton_append, shiftLines_cons_keep (fun h' => hc h'.1),
      shiftLines_cons_keep (fun h' => hc h'.1)]
    rfl
  | c :: d :: a, b, h => by
    have ih := @shiftLines_append n (d :: a) b (by simpa [List.getLast?_cons_cons] using h)
    have same : (c = '\n' ∧ opensLine (d :: a ++ b) = true) ↔ (c = '\n' ∧ opensLine (d :: a) = true) :=
      Iff.rfl
    by_cases hc : c = '\n' ∧ opensLine (d :: a) = true
    · rw [List.cons_append, shiftLines_cons_shift (same.mpr hc), shiftLines_cons_shift hc, ih]
      simp
    · rw [List.cons_append, shiftLines_cons_keep (mt same.mp hc), shiftLines_cons_keep hc, ih]
      rfl

@[simp] theorem shiftLines_zero : ∀ s : List Char, shiftLines 0 s = s
  | [] => rfl
  | c :: s => by
    by_cases h : c = '\n' ∧ opensLine s = true
    · rw [shiftLines_cons_shift h, shiftLines_zero s]; rfl
    · rw [shiftLines_cons_keep h, shiftLines_zero s]

theorem shiftLines_replicate_append (n m : Nat) (s : List Char) :
    shiftLines n (List.replicate m ' ' ++ s) = List.replicate m ' ' ++ shiftLines n s := by
  induction m with
  | zero => rfl
  | succ m ih =>
    rw [List.replicate_succ, List.cons_append, shiftLines_cons_keep (by simp), ih]
    rfl

theorem shiftLines_shiftLines (n m : Nat) : ∀ s : List Char,
    shiftLines n (shiftLines m s) = shiftLines (n + m) s
  | [] => rfl
  | c :: s => by
    have ih := shiftLines_shiftLines n m s
    by_cases h : c = '\n' ∧ opensLine s = true
    · have hopen : opensLine (List.replicate m ' ' ++ shiftLines m s) = true := by
        cases m <;> simp [List.replicate_succ, h.2]
      rw [shiftLines_cons_shift h, shiftLines_cons_shift ⟨h.1, hopen⟩, shiftLines_cons_shift h,
        shiftLines_replicate_append, ih, List.replicate_add, List.append_assoc]
    · rw [shiftLines_cons_keep h, shiftLines_cons_keep (by simpa using h), shiftLines_cons_keep h, ih]

theorem getLast?_shiftLines (n : Nat) : ∀ s : List Char, (shiftLines n s).getLast? = s.getLast?
  | [] => rfl
  | [c] => by
    rw [shiftLines_cons_keep (by simp [opensLine])]
    rfl
  | c :: d :: s => by
    have ne : shiftLines n (d :: s) ≠ [] := by
      unfold shiftLines
      split <;> simp
    rw [List.getLast?_cons_cons, ← getLast?_shiftLines n (d :: s)]
    by_cases h : c = '\n' ∧ opensLine (d :: s) = true
    · rw [shiftLines_cons_shift h]
      exact List.getLast?_append_of_ne_nil (c :: List.replicate n ' ') ne
    · rw [shiftLines_cons_keep h]
      exact List.getLast?_append_of_ne_nil [c] ne

/-- `indent` puts the indentation after every newline that starts a non-empty line and nowhere
else, so re-indenting a rendering that was already indented adds the two amounts. -/
theorem indent_inserts_after_newlines :
    (∀ (n : Nat) (s : List Char), indent n s = some (shiftLines n s)) ∧
    ∀ (n m : Nat) (s : List Char), (indent m s).bind (indent n) = indent (n + m : Nat) s := by
  refine ⟨indent_of_nat, fun n m s => ?_⟩
  rw [indent_of_nat, Option.some_bind, indent_of_nat, indent_of_nat, shiftLines_shiftLines]

example : indent 2 "a\n\nb\n".toList = some "a\n\n  b\n".toList := by decide

end Goose.Coq
