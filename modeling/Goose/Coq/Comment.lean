import Goose.Coq.Layout

/-! What `AddComment` emits, read with Coq's comment nesting: `(*` opens a level and `*)`
closes one. The text between `(* ` and ` *)` is copied verbatim, so the emission is a single
comment exactly when the comment text is itself balanced; re-indentation only puts spaces
after newlines and never makes or breaks a delimiter. -/

namespace Goose.Coq

/-- The nesting level after reading `s` from level `k`; a `*)` at level zero is `none`. -/
def commentLevel : Nat → List Char → Option Nat
  | k, [] | k, [_] => some k
  | k, c :: d :: s =>
    if c = '(' ∧ d = '*' then commentLevel (k + 1) s
    else if c = '*' ∧ d = ')' then
      match k with
      | 0 => none
      | k + 1 => commentLevel k s
    else commentLevel k (d :: s)

/-- Reading `s` at level `k + 1`, the level falls to zero at the last character and not
before. -/
def closesAtEnd : Nat → List Char → Bool
  | _, [] | _, [_] => false
  | k, c :: d :: s =>
    if c = '(' ∧ d = '*' then closesAtEnd (k + 1) s
    else if c = '*' ∧ d = ')' then
      match k with
      | 0 => s.isEmpty
      | k + 1 => closesAtEnd k s
    else closesAtEnd k (d :: s)

/-- `t` is one Coq comment: it opens with `(*`, and that level is closed by its last `*)`. -/
def oneComment : List Char → Bool
  | '(' :: '*' :: s => closesAtEnd 0 s
  | _ => false

theorem closesAtEnd_skip (c : Char) (hc : c ≠ '(' ∧ c ≠ '*') (k : Nat) (s : List Char) :
    closesAtEnd k (c :: s) = closesAtEnd k s := by
  match s with
  | [] => rfl
  | [_] => simp [closesAtEnd, hc.1, hc.2]
  | d :: e :: s => simp [closesAtEnd, hc.1, hc.2]

theorem closesAtEnd_spaces (n k : Nat) (s : List Char) :
    closesAtEnd k (List.replicate n ' ' ++ s) = closesAtEnd k s := by
  induction n with
  | zero => rfl
  | succ n ih => rw [List.replicate_succ, List.cons_append, closesAtEnd_skip ' ' (by decide), ih]

theorem closesAtEnd_pass {c d : Char} (ho : ¬(c = '(' ∧ d = '*')) (hx : ¬(c = '*' ∧ d = ')'))
    (k : Nat) (s : List Char) : closesAtEnd k (c :: d :: s) = closesAtEnd k (d :: s) := by
  simp [closesAtEnd, ho, hx]

theorem shiftLines_newline (n : Nat) (s : List Char) :
    shiftLines n ('\n' :: s) =
      '\n' :: (List.replicate (if opensLine s then n else 0) ' ' ++ shiftLines n s) := by
  by_cases h : opensLine s = true
  · rw [shiftLines_cons_shift ⟨rfl, h⟩, if_pos h]
  · rw [shiftLines_cons_keep (by simp [h]), if_neg h]
    rfl

theorem shiftLines_cons_head (n : Nat) (d : Char) (s : List Char) :
    ∃ t, shiftLines n (d :: s) = d :: t := by
  by_cases h : d = '\n' ∧ opensLine s = true
  · exact ⟨_, shiftLines_cons_shift h⟩
  · exact ⟨_, shiftLines_cons_keep h⟩

theorem shiftLines_other {n : Nat} {c : Char} (hc : c ≠ '\n') (s : List Char) :
    shiftLines n (c :: s) = c :: shiftLines n s :=
  shiftLines_cons_keep fun h => hc h.1

@[simp] theorem shiftLines_isEmpty (n : Nat) (s : List Char) :
    (shiftLines n s).isEmpty = s.isEmpty := by
  cases s with
  | nil => rfl
  | cons c s => obtain ⟨t, ht⟩ := shiftLines_cons_head n c s; simp [ht]

theorem closesAtEnd_shiftLines (n : Nat) : ∀ (k : Nat) (s : List Char),
    closesAtEnd k (shiftLines n s) = closesAtEnd k s
  | _, [] => rfl
  | k, [c] => by
    rw [shiftLines_cons_keep (by simp [opensLine])]
    rfl
  | k, c :: d :: s => by
    have next := closesAtEnd_shiftLines n k (d :: s)
    have rest := fun k' => closesAtEnd_shiftLines n k' s
    by_cases hc : c = '\n'
    · rw [hc, shiftLines_newline, closesAtEnd_skip '\n' (by decide), closesAtEnd_spaces, next,
        closesAtEnd_skip '\n' (by decide)]
    · rw [shiftLines_other hc]
      by_cases ho : c = '(' ∧ d = '*'
      · rw [shiftLines_other (by simp [ho.2])]
        simp [closesAtEnd, ho, rest]
      · by_cases hx : c = '*' ∧ d = ')'
        · rw [shiftLines_other (by simp [hx.2])]
          cases k <;> simp [closesAtEnd, hx, rest]
        · obtain ⟨t, ht⟩ := shiftLines_cons_head n d s
          rw [ht, closesAtEnd_pass ho hx, ← ht, next, closesAtEnd_pass ho hx]

theorem closesAtEnd_close (k : Nat) : ∀ c : List Char,
    closesAtEnd k (c ++ " *)".toList) = decide (commentLevel k c = some 0)
  | [] => by cases k <;> rfl
  | [x] => by
    rw [List.singleton_append, show " *)".toList = [' ', '*', ')'] from rfl,
      closesAtEnd_pass (by simp) (by simp)]
    cases k <;> rfl
  | x :: y :: s => by
    have next := closesAtEnd_close k (y :: s)
    have rest := fun k' => closesAtEnd_close k' s
    rw [List.cons_append, List.cons_append]
    by_cases ho : x = '(' ∧ y = '*'
    · simp only [closesAtEnd, commentLevel, ho, and_self, if_true]
      exact rest (k + 1)
    · by_cases hx : x = '*' ∧ y = ')'
      · cases k with
        | zero => simp [closesAtEnd, commentLevel, hx]
        | succ k =>
          simp only [closesAtEnd, commentLevel, ho, hx, and_self, if_true, if_false]
          exact rest k
      · rw [closesAtEnd_pass ho hx, ← List.cons_append, next]
        simp [commentLevel, ho, hx]

theorem addComment_of_neg {pp : Buffer} (negative : pp.indentLevel < 0) {c : List Char}
    (nonempty : c ≠ []) : pp.addComment c = none := by
  simp [Buffer.addComment, Buffer.block, Buffer.addLine, Buffer.indentation, negative, nonempty,
    indent_of_nat]

theorem oneComment_shiftLines_commentText (n : Nat) (c : List Char) :
    oneComment (shiftLines n (commentText c)) = decide (commentLevel 0 c = some 0) := by
  rw [commentText, show "(* ".toList = ['(', '*', ' '] from rfl, List.cons_append,
    List.cons_append, shiftLines_other (by decide), shiftLines_other (by decide), oneComment,
    closesAtEnd_shiftLines, List.singleton_append, closesAtEnd_skip ' ' (by decide),
    closesAtEnd_shiftLines, closesAtEnd_close]

/-- `AddComment(c)` leaves the buffer as it is for an empty comment. A non-empty comment panics
at a negative level; at any other level it adds one line, the indentation followed by a text that
is a single Coq comment exactly when `c` is balanced under the nesting rule, and keeps the
level. -/
theorem addComment_emits_one_comment :
    (∀ pp : Buffer, pp.addComment [] = some pp) ∧
    ∀ (pp : Buffer) (c : List Char), c ≠ [] →
      (pp.indentLevel < 0 → pp.addComment c = none) ∧
      (0 ≤ pp.indentLevel → ∃ t,
        pp.addComment c =
          some ⟨pp.lines ++ [List.replicate pp.indentLevel.toNat ' ' ++ t], pp.indentLevel⟩ ∧
        (oneComment t = true ↔ commentLevel 0 c = some 0)) := by
  refine ⟨fun _ => if_pos rfl, fun ⟨ls, k⟩ c nonempty =>
    ⟨fun negative => addComment_of_neg negative nonempty, fun hk => ?_⟩⟩
  refine ⟨shiftLines k.toNat (commentText c), ?_, by simp [oneComment_shiftLines_commentText]⟩
  rw [Buffer.addComment_mk ls hk, if_neg nonempty]
  simp [lineAt, commentText]

/-- A doc comment that names a method through a pointer receiver leaves a level open. -/
theorem receiver_comment_stays_open :
    (Buffer.empty.addComment "Close is (*File).Close".toList).map Buffer.build =
      some (commentText "Close is (*File).Close".toList) ∧
    oneComment (commentText "Close is (*File).Close".toList) = false := by
  decide

/-- A plain doc comment is emitted as one comment, and an empty one adds nothing. -/
theorem plain_comment_is_one_comment :
    Buffer.empty.addComment "A Table is immutable.".toList =
        some ⟨[commentText "A Table is immutable.".toList], 0⟩ ∧
      Buffer.empty.addComment [] = some Buffer.empty ∧
      "A Table is immutable.".toList ≠ [] ∧ 0 ≤ Buffer.empty.indentLevel ∧
      ∃ t, Buffer.empty.addComment "A Table is immutable.".toList =
          some ⟨Buffer.empty.lines ++ [List.replicate Buffer.empty.indentLevel.toNat ' ' ++ t],
            Buffer.empty.indentLevel⟩ ∧
        (oneComment t = true ↔ commentLevel 0 "A Table is immutable.".toList = some 0) :=
  ⟨by simp [lineAt], addComment_emits_one_comment.1 _, by decide, by decide,
    (addComment_emits_one_comment.2 _ _ (by decide)).2 (by decide)⟩

end Goose.Coq
