import Mathlib

/-!
# The text of an SQL statement

* `quoted`, `comment` : where a quoted text and a comment end; what follows them may be exchanged (`quoted_append`,
  `comment_append`);
* `Piece`, `next`, `pieces` : a statement cut into quoted texts, comments, hints and single characters;
* `blank` : the pieces with every comment away, in the place of a block comment a blank.

A hint is a block comment that starts with a plus. Whether it is a piece of its own is a parameter: a reader that does not
know hints takes the start of one for single characters.
-/

namespace TtAiops.Lib.Sql

/-! ## Quoted texts and comments -/

/-- The rest of a quoted text up to its closing `q`, doubled ones passed over, and what follows it. -/
def quoted (q : Char) : List Char → List Char × List Char
  | [] => ([], [])
  | c :: s =>
    if c = q then
      match s with
      | [] => ([c], [])
      | d :: s => if d = q then (c :: d :: (quoted q s).1, (quoted q s).2) else ([c], d :: s)
    else (c :: (quoted q s).1, (quoted q s).2)

/-- The rest of a comment up to its closing, and what follows it. -/
def comment : List Char → List Char × List Char
  | [] => ([], [])
  | c :: s =>
    if c = '*' ∧ s.head? = some '/' then ([c, '/'], s.tail) else (c :: (comment s).1, (comment s).2)

variable {q : Char} {s t : List Char}

theorem quoted_cons {c : Char} (h : c ≠ q) (s : List Char) : quoted q (c :: s) = (c :: (quoted q s).1, (quoted q s).2) := by
  cases s <;> simp [quoted, h]

theorem quoted_split (q : Char) (s : List Char) : (quoted q s).1 ++ (quoted q s).2 = s := by
  fun_induction quoted q s <;> simp_all

theorem cons_tail {c : Char} (h : s.head? = some c) : c :: s.tail = s := by
  cases s with
  | nil => exact absurd h (by simp)
  | cons d s => rw [Option.some_inj.mp h, List.tail_cons]

theorem comment_split (s : List Char) : (comment s).1 ++ (comment s).2 = s := by
  induction s with
  | nil => rfl
  | cons c s ih =>
    unfold comment
    split_ifs with h
    · rw [← cons_tail h.2]
      rfl
    · rw [List.cons_append, ih]

theorem length_quoted_le (q : Char) (s : List Char) : (quoted q s).2.length ≤ s.length := by
  have h := congrArg List.length (quoted_split q s)
  rw [List.length_append] at h
  omega

theorem length_comment_le (s : List Char) : (comment s).2.length ≤ s.length := by
  have h := congrArg List.length (comment_split s)
  rw [List.length_append] at h
  omega

/-- A quoted text may be followed by anything that does not go on with it; one without an end, by nothing. -/
theorem quoted_append (hend : (quoted q s).2 = [] → t = []) (ht : t.head? ≠ some q) :
    quoted q ((quoted q s).1 ++ t) = ((quoted q s).1, t) := by
  fun_induction quoted q s with
  | case1 =>
    rw [hend rfl]
    rfl
  | case2 =>
    rw [hend rfl]
    simp [quoted]
  | case3 s ih => simp [quoted, ih hend]
  | case4 d s hd =>
    cases t with
    | nil => simp [quoted]
    | cons x t =>
      have hx : x ≠ q := fun h => ht (by rw [h]; rfl)
      simp [quoted, hx]
  | case5 c s hc ih => rw [List.cons_append, quoted_cons hc, ih hend]

theorem head?_quoted (q : Char) (s : List Char) : (quoted q s).2.head? ≠ some q := by
  fun_induction quoted q s with
  | case1 => simp
  | case2 => simp
  | case3 s ih => exact ih
  | case4 d s hd => simpa using hd
  | case5 c s hc ih => exact ih

theorem getLast?_quoted (h : (quoted q s).2 ≠ []) : (quoted q s).1.getLast? = some q := by
  fun_induction quoted q s with
  | case1 => exact absurd rfl h
  | case2 => exact absurd rfl h
  | case3 s ih =>
    rw [List.getLast?_cons, List.getLast?_cons, ih h]
    rfl
  | case4 d s hd => rfl
  | case5 c s hc ih =>
    rw [List.getLast?_cons, ih h]
    rfl

theorem head?_comment (s : List Char) : (comment s).1.head? = s.head? := by
  cases s with
  | nil => rfl
  | cons c s =>
    unfold comment
    split_ifs <;> rfl

theorem comment_append (hend : (comment s).2 = [] → t = []) : comment ((comment s).1 ++ t) = ((comment s).1, t) := by
  induction s with
  | nil =>
    rw [hend rfl]
    rfl
  | cons c s ih =>
    by_cases h : c = '*' ∧ s.head? = some '/'
    · have heq : comment (c :: s) = ([c, '/'], s.tail) := by rw [comment, if_pos h]
      rw [heq]
      show comment (c :: '/' :: t) = ([c, '/'], t)
      rw [comment, if_pos ⟨h.1, rfl⟩, List.tail_cons]
    · have heq : comment (c :: s) = (c :: (comment s).1, (comment s).2) := by rw [comment, if_neg h]
      rw [heq] at hend ⊢
      have hopen : ¬ (c = '*' ∧ ((comment s).1 ++ t).head? = some '/') := by
        rw [List.head?_append, head?_comment]
        cases s with
        | nil =>
          rw [hend rfl]
          simp
        | cons d s => exact h
      rw [List.cons_append, comment, if_neg hopen, ih hend]

theorem getLast?_comment (h : (comment s).2 ≠ []) : (comment s).1.getLast? = some '/' := by
  induction s with
  | nil => exact absurd rfl h
  | cons c s ih =>
    unfold comment at h ⊢
    split_ifs at h ⊢
    · rfl
    · rw [List.getLast?_cons, ih h]
      rfl

/-! ## Two characters in a text -/

theorem pair_infix_cons {a b c : Char} : [a, b] <:+: c :: s ↔ (c = a ∧ s.head? = some b) ∨ [a, b] <:+: s := by
  rw [List.infix_cons_iff]
  refine or_congr_left ?_
  cases s with
  | nil => simp
  | cons d s => simp [eq_comm]

theorem pair_infix_append {a b : Char} :
    [a, b] <:+: s ++ t ↔ [a, b] <:+: s ∨ (s.getLast? = some a ∧ t.head? = some b) ∨ [a, b] <:+: t := by
  induction s with
  | nil => simp
  | cons c s ih =>
    rw [List.cons_append, pair_infix_cons, pair_infix_cons, ih, List.head?_append]
    cases s with
    | nil => simp
    | cons d s => simp [or_assoc]

/-! ## Pieces -/

inductive Piece
  | quoted (text : List Char)
  | line (text : List Char)
  | block (text : List Char)
  | hint (text : List Char)
  | char (c : Char)
deriving DecidableEq

def Piece.text : Piece → List Char
  | quoted text | line text | block text | hint text => text
  | char c => [c]

/-- The piece that starts with `c`, and what follows it. -/
def next (hints : Bool) (c : Char) (s : List Char) : Piece × List Char :=
  if c = '\'' ∨ c = '"' then (.quoted (c :: (quoted c s).1), (quoted c s).2)
  else if c = '-' ∧ s.head? = some '-' then (.line (c :: s.takeWhile (· ≠ '\n')), s.dropWhile (· ≠ '\n'))
  else if c = '/' ∧ s.head? = some '*' then
    if s.tail.head? = some '+' then
      if hints then (.hint (c :: '*' :: (comment s.tail).1), (comment s.tail).2) else (.char c, s)
    else (.block (c :: '*' :: (comment s.tail).1), (comment s.tail).2)
  else (.char c, s)

section Next

variable {hints : Bool} {c : Char}

theorem next_quoted (h : c = '\'' ∨ c = '"') : next hints c s = (.quoted (c :: (quoted c s).1), (quoted c s).2) := if_pos h

theorem next_line (h : c = '-' ∧ s.head? = some '-') :
    next hints c s = (.line (c :: s.takeWhile (· ≠ '\n')), s.dropWhile (· ≠ '\n')) := by
  have hq : ¬ (c = '\'' ∨ c = '"') := by rw [h.1]; decide
  unfold next
  rw [if_neg hq, if_pos h]

theorem next_block (h : c = '/' ∧ s.head? = some '*') (hplus : s.tail.head? ≠ some '+') :
    next hints c s = (.block (c :: '*' :: (comment s.tail).1), (comment s.tail).2) := by
  have hq : ¬ (c = '\'' ∨ c = '"') := by rw [h.1]; decide
  have hl : ¬ (c = '-' ∧ s.head? = some '-') := by rw [h.1]; simp
  unfold next
  rw [if_neg hq, if_neg hl, if_pos h, if_neg hplus]

theorem next_hint (h : c = '/' ∧ s.head? = some '*') (hplus : s.tail.head? = some '+') :
    next hints c s = if hints then (.hint (c :: '*' :: (comment s.tail).1), (comment s.tail).2) else (.char c, s) := by
  have hq : ¬ (c = '\'' ∨ c = '"') := by rw [h.1]; decide
  have hl : ¬ (c = '-' ∧ s.head? = some '-') := by rw [h.1]; simp
  unfold next
  rw [if_neg hq, if_neg hl, if_pos h, if_pos hplus]

theorem next_char (hq : ¬ (c = '\'' ∨ c = '"')) (hl : ¬ (c = '-' ∧ s.head? = some '-'))
    (hb : ¬ (c = '/' ∧ s.head? = some '*')) : next hints c s = (.char c, s) := by
  unfold next
  rw [if_neg hq, if_neg hl, if_neg hb]

/-- Where no hint starts, a reader that knows hints reads like one that does not. -/
theorem next_of_no_hint (h : ∀ text, (next true c s).1 ≠ .hint text) : next true c s = next false c s := by
  by_cases hq : c = '\'' ∨ c = '"'
  · rw [next_quoted hq, next_quoted hq]
  by_cases hl : c = '-' ∧ s.head? = some '-'
  · rw [next_line hl, next_line hl]
  by_cases hb : c = '/' ∧ s.head? = some '*'
  · by_cases hplus : s.tail.head? = some '+'
    · rw [next_hint hb hplus, if_pos rfl] at h
      exact absurd rfl (h _)
    · rw [next_block hb hplus, next_block hb hplus]
  · rw [next_char hq hl hb, next_char hq hl hb]

end Next

theorem length_next_le (hints : Bool) (c : Char) (s : List Char) : (next hints c s).2.length ≤ s.length := by
  have htail : s.tail.length ≤ s.length := by rw [List.length_tail]; omega
  unfold next
  split_ifs
  · exact length_quoted_le c s
  · exact (List.dropWhile_sublist _).length_le
  · exact (length_comment_le _).trans htail
  · exact le_rfl
  · exact (length_comment_le _).trans htail
  · exact le_rfl

def pieces (hints : Bool) : List Char → List Piece
  | [] => []
  | c :: s => (next hints c s).1 :: pieces hints (next hints c s).2
termination_by s => s.length
decreasing_by exact Nat.lt_succ_of_le (length_next_le hints c s)

theorem pieces_cons (hints : Bool) (c : Char) (s : List Char) :
    pieces hints (c :: s) = (next hints c s).1 :: pieces hints (next hints c s).2 := by
  rw [pieces]

theorem head?_pieces (hints : Bool) (h : s.head? = some '*') : (pieces hints s).head? = some (.char '*') := by
  rw [← cons_tail h, pieces_cons, next_char (by decide) (by simp) (by simp)]
  rfl

/-- What stands in the place of a piece when the comments are taken out. -/
def Piece.blank : Piece → Option Piece
  | .line _ => none
  | .block _ => some (.char ' ')
  | p => some p

def blank (ps : List Piece) : List Piece := ps.filterMap Piece.blank

theorem blank_blank (ps : List Piece) : blank (blank ps) = blank ps := by
  have hblank : (fun p : Piece => p.blank.bind Piece.blank) = Piece.blank := by
    funext p
    cases p <;> rfl
  unfold blank
  rw [List.filterMap_filterMap, hblank]

/-- The text of a hint that reads the same character by character: no quote in it, and no start of a comment after its own. -/
def PlainHint (text : List Char) : Prop :=
  '\'' ∉ text ∧ '"' ∉ text ∧ ¬ ['-', '-'] <:+: text ∧ ¬ ['/', '*'] <:+: text.tail

/-- Every hint is plain, and no star stands right behind it. -/
def HintsPlain : List Piece → Prop
  | [] => True
  | .hint text :: ps => PlainHint text ∧ ps.head? ≠ some (.char '*') ∧ HintsPlain ps
  | _ :: ps => HintsPlain ps

end TtAiops.Lib.Sql
