import TtAiops.Lib.SqlText

/-!
# What the relay makes of a query

* `stripComments` : the comments out of a statement, its strings, quoted names and hints left as they are;
* `stripComments_pieces` : the statement reads as before with its comments blanked out;
* `strip_clean` : for a reader that does not know hints this is so of every statement, and there is nothing left to strip;
* `strip_keeps_hints` : a reader that knows them sees it so where the hints are plain;
* `strip_pair`, `strip_accepted` : what is stripped has no start of a comment outside of its quoted texts.
-/

namespace TtAiops.Ingest
open TtAiops.Lib.Sql

def stripComments : List Char → List Char
  | [] => []
  | c :: s =>
    if c = '\'' ∨ c = '"' then c :: (quoted c s).1 ++ stripComments (quoted c s).2
    -- the newline stays
    else if c = '-' ∧ s.head? = some '-' then stripComments (s.dropWhile (· ≠ '\n'))
    else if c = '/' ∧ s.head? = some '*' ∧ s.tail.head? ≠ some '+' then ' ' :: stripComments (comment s.tail).2
    else c :: stripComments s
termination_by s => s.length
decreasing_by
  · exact Nat.lt_succ_of_le (length_quoted_le c s)
  · exact Nat.lt_succ_of_le (List.dropWhile_sublist _).length_le
  · exact Nat.lt_succ_of_le ((length_comment_le _).trans (by rw [List.length_tail]; omega))
  · exact Nat.lt_succ_self _

theorem strip_nil : stripComments [] = [] := by rw [stripComments]

theorem strip_quoted {c : Char} (h : c = '\'' ∨ c = '"') (s : List Char) :
    stripComments (c :: s) = c :: (quoted c s).1 ++ stripComments (quoted c s).2 := by
  rw [stripComments, if_pos h]

theorem strip_line {c : Char} {s : List Char} (h : c = '-' ∧ s.head? = some '-') :
    stripComments (c :: s) = stripComments (s.dropWhile (· ≠ '\n')) := by
  have hq : ¬ (c = '\'' ∨ c = '"') := by rw [h.1]; decide
  rw [stripComments, if_neg hq, if_pos h]

theorem strip_block {c : Char} {s : List Char} (h : c = '/' ∧ s.head? = some '*' ∧ s.tail.head? ≠ some '+') :
    stripComments (c :: s) = ' ' :: stripComments (comment s.tail).2 := by
  have hq : ¬ (c = '\'' ∨ c = '"') := by rw [h.1]; decide
  have hl : ¬ (c = '-' ∧ s.head? = some '-') := by rw [h.1]; simp
  rw [stripComments, if_neg hq, if_neg hl, if_pos h]

def Single (c : Char) (s : List Char) : Prop :=
  ¬ (c = '\'' ∨ c = '"') ∧ ¬ (c = '-' ∧ s.head? = some '-') ∧ ¬ (c = '/' ∧ s.head? = some '*' ∧ s.tail.head? ≠ some '+')

theorem strip_single {c : Char} {s : List Char} (h : Single c s) : stripComments (c :: s) = c :: stripComments s := by
  rw [stripComments, if_neg h.1, if_neg h.2.1, if_neg h.2.2]

/-- What a stripped text starts with: what the text starts with, or something that goes on with nothing. -/
theorem head?_strip (s : List Char) :
    (stripComments s).head? = s.head? ∨ (stripComments s).head? = some ' ' ∨ (stripComments s).head? = some '\n' ∨
      stripComments s = [] := by
  cases s with
  | nil => exact Or.inl (by rw [strip_nil])
  | cons c s =>
    by_cases hq : c = '\'' ∨ c = '"'
    · exact Or.inl (by rw [strip_quoted hq]; rfl)
    by_cases hl : c = '-' ∧ s.head? = some '-'
    · rw [strip_line hl]
      cases hrest : s.dropWhile (· ≠ '\n') with
      | nil => exact Or.inr (Or.inr (Or.inr strip_nil))
      | cons d r =>
        have hd : d = '\n' := by
          have h := List.head?_dropWhile_not (fun x => decide (x ≠ '\n')) s
          rw [hrest] at h
          simpa using h
        have hsingle : Single d r := by
          rw [hd]
          exact ⟨by decide, by simp, by simp⟩
        rw [strip_single hsingle, hd]
        exact Or.inr (Or.inr (Or.inl rfl))
    by_cases hb : c = '/' ∧ s.head? = some '*' ∧ s.tail.head? ≠ some '+'
    · exact Or.inr (Or.inl (by rw [strip_block hb]; rfl))
    · exact Or.inl (by rw [strip_single ⟨hq, hl, hb⟩]; rfl)

theorem strip_head_ne {s : List Char} {c : Char} (h : s.head? ≠ some c) (hblank : c ≠ ' ') (hline : c ≠ '\n') :
    (stripComments s).head? ≠ some c := by
  rcases head?_strip s with hs | hs | hs | hs <;> rw [hs]
  · exact h
  · exact fun heq => hblank (Option.some_inj.mp heq).symm
  · exact fun heq => hline (Option.some_inj.mp heq).symm
  · simp

theorem head?_append_ne {c d : Char} {w r : List Char} (hno : ¬ [c, d] <:+: c :: w)
    (hlast : w = [] → r.head? ≠ some d) : (w ++ r).head? ≠ some d := by
  cases w with
  | nil => exact hlast rfl
  | cons x w =>
    intro hx
    have hx' : x = d := Option.some_inj.mp hx
    exact hno (by rw [hx']; exact ⟨[], w, rfl⟩)

/-- A text in which nothing starts, also before what follows it, is left as it is. -/
theorem strip_append {w r : List Char} (hquote : '\'' ∉ w) (hquote' : '"' ∉ w) (hline : ¬ ['-', '-'] <:+: w)
    (hblock : ¬ ['/', '*'] <:+: w) (hdash : w.getLast? = some '-' → r.head? ≠ some '-')
    (hslash : w.getLast? = some '/' → r.head? ≠ some '*') : stripComments (w ++ r) = w ++ stripComments r := by
  induction w with
  | nil => rfl
  | cons c w ih =>
    have hlast : ∀ d, w.getLast? = some d → (c :: w).getLast? = some d := by
      intro d hd
      rw [List.getLast?_cons, hd]
      rfl
    have hone : w = [] → (c :: w).getLast? = some c := by
      intro hw
      rw [hw]
      rfl
    have hpart : ∀ l : List Char, l <:+: w → l <:+: c :: w := fun l hl => hl.trans (List.suffix_cons c w).isInfix
    have hsingle : Single c (w ++ r) := by
      refine ⟨?_, ?_, ?_⟩
      · rintro (rfl | rfl)
        · exact hquote List.mem_cons_self
        · exact hquote' List.mem_cons_self
      · rintro ⟨rfl, hhead⟩
        exact head?_append_ne hline (fun hw => hdash (hone hw)) hhead
      · rintro ⟨rfl, hhead, -⟩
        exact head?_append_ne hblock (fun hw => hslash (hone hw)) hhead
    rw [List.cons_append, strip_single hsingle, ih (fun h => hquote (List.mem_cons_of_mem _ h))
      (fun h => hquote' (List.mem_cons_of_mem _ h)) (fun h => hline (hpart _ h)) (fun h => hblock (hpart _ h))
      (fun h => hdash (hlast _ h)) (fun h => hslash (hlast _ h)), List.cons_append]

theorem strip_hint {s : List Char} (hstar : s.head? = some '*') (hplus : s.tail.head? = some '+')
    (hplain : PlainHint ('/' :: '*' :: (comment s.tail).1)) (hbehind : (comment s.tail).2.head? ≠ some '*') :
    stripComments ('/' :: s) = '/' :: '*' :: (comment s.tail).1 ++ stripComments (comment s.tail).2 := by
  obtain ⟨hquote, hquote', hline, hblock⟩ := hplain
  have hsingle : Single '/' s := ⟨by decide, by simp, fun h => h.2.2 hplus⟩
  have hdash : ('*' :: (comment s.tail).1).getLast? = some '-' → (comment s.tail).2.head? ≠ some '-' := by
    intro hlast hhead
    have hclosed : (comment s.tail).1.getLast? = some '/' := getLast?_comment fun h => by rw [h] at hhead; simp at hhead
    rw [List.getLast?_cons, hclosed] at hlast
    exact absurd hlast (by simp)
  have hsplit : s = '*' :: (comment s.tail).1 ++ (comment s.tail).2 := by
    rw [List.cons_append, comment_split, cons_tail hstar]
  rw [strip_single hsingle]
  nth_rewrite 1 [hsplit]
  rw [strip_append (fun h => hquote (List.mem_cons_of_mem _ h)) (fun h => hquote' (List.mem_cons_of_mem _ h))
    (fun h => hline (h.trans (List.suffix_cons _ _).isInfix)) hblock hdash (fun _ => hbehind)]
  rfl

/-- **A stripped statement reads as before, its comments blanked out.** -/
theorem stripComments_pieces (hints : Bool) (s : List Char) (hplain : hints = true → HintsPlain (pieces hints s)) :
    pieces hints (stripComments s) = blank (pieces hints s) := by
  induction hn : s.length using Nat.strong_induction_on generalizing s with
  | _ n ih =>
    cases s with
    | nil =>
      rw [strip_nil, pieces]
      rfl
    | cons c s =>
      have hrest : ∀ r : List Char, r.length ≤ s.length → (hints = true → HintsPlain (pieces hints r)) →
          pieces hints (stripComments r) = blank (pieces hints r) :=
        fun r hr hr' => ih r.length (by rw [← hn]; exact Nat.lt_succ_of_le hr) r hr' rfl
      have hnil : ∀ r : List Char, r = [] → stripComments r = [] := fun r hr => by rw [hr, strip_nil]
      have htail : (comment s.tail).2.length ≤ s.length :=
        (length_comment_le _).trans (by rw [List.length_tail]; omega)
      rw [pieces_cons] at hplain ⊢
      by_cases hq : c = '\'' ∨ c = '"'
      · rw [next_quoted hq] at hplain ⊢
        have hhead : (stripComments (quoted c s).2).head? ≠ some c :=
          strip_head_ne (head?_quoted c s) (by rcases hq with rfl | rfl <;> decide) (by rcases hq with rfl | rfl <;> decide)
        rw [strip_quoted hq, List.cons_append, pieces_cons, next_quoted hq, quoted_append (hnil _) hhead,
          hrest _ (length_quoted_le c s) hplain]
        rfl
      by_cases hl : c = '-' ∧ s.head? = some '-'
      · rw [next_line hl] at hplain ⊢
        rw [strip_line hl, hrest _ (List.dropWhile_sublist _).length_le hplain]
        rfl
      by_cases hb : c = '/' ∧ s.head? = some '*'
      · by_cases hplus : s.tail.head? = some '+'
        · rw [next_hint hb hplus] at hplain ⊢
          cases hints with
          | true =>
            obtain ⟨hhint, hbehind, hmore⟩ := hplain rfl
            have hhead : (comment s.tail).2.head? ≠ some '*' := fun h => hbehind (head?_pieces true h)
            have hplus' : ((comment s.tail).1 ++ stripComments (comment s.tail).2).head? = some '+' := by
              rw [List.head?_append, head?_comment, hplus]
              rfl
            have hread : next true '/' ('*' :: ((comment s.tail).1 ++ stripComments (comment s.tail).2)) =
                (.hint ('/' :: '*' :: (comment s.tail).1), stripComments (comment s.tail).2) := by
              have h := @next_hint ('*' :: ((comment s.tail).1 ++ stripComments (comment s.tail).2)) true '/' ⟨rfl, rfl⟩ hplus'
              rwa [if_pos rfl, List.tail_cons, comment_append (hnil _)] at h
            rw [hb.1] at hhint ⊢
            rw [strip_hint hb.2 hplus hhint hhead, List.cons_append, List.cons_append, pieces_cons, hread, if_pos rfl,
              hrest _ htail fun _ => hmore]
            rfl
          | false =>
            have hstar : Single '*' s.tail := ⟨by decide, by simp, by simp⟩
            have hadd : Single '+' s.tail.tail := ⟨by decide, by simp, by simp⟩
            have hstrip : stripComments s = '*' :: '+' :: stripComments s.tail.tail := by
              rw [← cons_tail hb.2, strip_single hstar, List.tail_cons, ← cons_tail hplus, strip_single hadd, List.tail_cons]
            rw [strip_single ⟨hq, hl, fun h => h.2.2 hplus⟩, pieces_cons, hb.1,
              next_hint ⟨rfl, by rw [hstrip]; rfl⟩ (by rw [hstrip]; rfl)]
            have hmore := hrest s le_rfl fun h => absurd h Bool.false_ne_true
            show Piece.char '/' :: pieces false (stripComments s) = .char '/' :: blank (pieces false s)
            rw [hmore]
        · rw [next_block hb hplus] at hplain ⊢
          rw [strip_block ⟨hb.1, hb.2, hplus⟩, pieces_cons, next_char (by decide) (by simp) (by simp), hrest _ htail hplain]
          rfl
      · rw [next_char hq hl hb] at hplain ⊢
        have hl' : ¬ (c = '-' ∧ (stripComments s).head? = some '-') := fun h =>
          strip_head_ne (fun hs => hl ⟨h.1, hs⟩) (by decide) (by decide) h.2
        have hb' : ¬ (c = '/' ∧ (stripComments s).head? = some '*') := fun h =>
          strip_head_ne (fun hs => hb ⟨h.1, hs⟩) (by decide) (by decide) h.2
        rw [strip_single ⟨hq, hl, fun h => hb ⟨h.1, h.2.1⟩⟩, pieces_cons, next_char hq hl' hb', hrest s le_rfl hplain]
        rfl

theorem strip_eq_text (s : List Char) : stripComments s = (blank (pieces false s)).flatMap Piece.text := by
  induction hn : s.length using Nat.strong_induction_on generalizing s with
  | _ n ih =>
    cases s with
    | nil =>
      rw [strip_nil, pieces]
      rfl
    | cons c s =>
      have hrest : ∀ r : List Char, r.length ≤ s.length → stripComments r = (blank (pieces false r)).flatMap Piece.text :=
        fun r hr => ih r.length (by rw [← hn]; exact Nat.lt_succ_of_le hr) r rfl
      rw [pieces_cons]
      by_cases hq : c = '\'' ∨ c = '"'
      · rw [strip_quoted hq, next_quoted hq, hrest _ (length_quoted_le c s)]
        rfl
      by_cases hl : c = '-' ∧ s.head? = some '-'
      · rw [strip_line hl, next_line hl, hrest _ (List.dropWhile_sublist _).length_le]
        rfl
      by_cases hb : c = '/' ∧ s.head? = some '*'
      · by_cases hplus : s.tail.head? = some '+'
        · rw [strip_single ⟨hq, hl, fun h => h.2.2 hplus⟩, next_hint hb hplus, hrest s le_rfl]
          rfl
        · rw [strip_block ⟨hb.1, hb.2, hplus⟩, next_block hb hplus,
            hrest _ ((length_comment_le _).trans (by rw [List.length_tail]; omega))]
          rfl
      · rw [strip_single ⟨hq, hl, fun h => hb ⟨h.1, h.2.1⟩⟩, next_char hq hl hb, hrest s le_rfl]
        rfl

theorem hint_not_mem (s text : List Char) : Piece.hint text ∉ pieces false s := by
  induction hn : s.length using Nat.strong_induction_on generalizing s with
  | _ n ih =>
    cases s with
    | nil =>
      rw [pieces]
      exact List.not_mem_nil
    | cons c s =>
      rw [pieces_cons, List.mem_cons, not_or]
      refine ⟨?_, ih _ (by rw [← hn]; exact Nat.lt_succ_of_le (length_next_le false c s)) _ rfl⟩
      unfold next
      split_ifs <;> first | contradiction | simp

/-- No two characters come together that the statement did not have together where it is read, but in a quoted text. `P` is
what is known of the statement from wherever it is read. -/
theorem strip_pair {a b : Char} (hblank : b ≠ ' ') (hline : b ≠ '\n') (hspace : a ≠ ' ') (hquote : a ≠ '\'')
    (hquote' : a ≠ '"') {P : List Char → Prop} (hstep : ∀ c r, P (c :: r) → P (next false c r).2)
    (hno : ∀ c r, P (c :: r) → Single c r → ¬ (c = a ∧ r.head? = some b)) {s : List Char} (hs : P s)
    (htexts : ∀ text, Piece.quoted text ∈ pieces false s → ¬ [a, b] <:+: text) : ¬ [a, b] <:+: stripComments s := by
  induction hn : s.length using Nat.strong_induction_on generalizing s with
  | _ n ih =>
    cases s with
    | nil => rw [strip_nil]; simp
    | cons c s =>
      have hrest : ∀ r : List Char, r = (next false c s).2 → (∀ p ∈ pieces false r, p ∈ pieces false (c :: s)) →
          ¬ [a, b] <:+: stripComments r := fun r hr hp =>
        ih r.length (by rw [← hn, hr]; exact Nat.lt_succ_of_le (length_next_le false c s)) (hr ▸ hstep c s hs)
          (fun text h => htexts text (hp _ h)) rfl
      have hmore : ∀ p ∈ pieces false (next false c s).2, p ∈ pieces false (c :: s) := by
        intro p hp
        rw [pieces_cons]
        exact List.mem_cons_of_mem _ hp
      by_cases hq : c = '\'' ∨ c = '"'
      · have htext := htexts (c :: (quoted c s).1) (by rw [pieces_cons, next_quoted hq]; exact List.mem_cons_self)
        rw [next_quoted hq] at hmore hrest
        rw [strip_quoted hq, pair_infix_append]
        rintro (h | ⟨hlast, hhead⟩ | h)
        · exact htext h
        · have hclosed : (quoted c s).2 ≠ [] := by
            intro hnil
            rw [hnil, strip_nil] at hhead
            exact absurd hhead (by simp)
          rw [List.getLast?_cons, getLast?_quoted hclosed] at hlast
          have hc : c = a := Option.some_inj.mp hlast
          rcases hq with hq | hq
          · exact hquote (hc ▸ hq)
          · exact hquote' (hc ▸ hq)
        · exact hrest _ rfl hmore h
      by_cases hl : c = '-' ∧ s.head? = some '-'
      · rw [next_line hl] at hmore hrest
        rw [strip_line hl]
        exact hrest _ rfl hmore
      by_cases hb : c = '/' ∧ s.head? = some '*' ∧ s.tail.head? ≠ some '+'
      · rw [next_block ⟨hb.1, hb.2.1⟩ hb.2.2] at hmore hrest
        rw [strip_block hb, pair_infix_cons]
        rintro (⟨h, -⟩ | h)
        · exact hspace h.symm
        · exact hrest _ rfl hmore h
      · have hsingle : Single c s := ⟨hq, hl, hb⟩
        have hnext : (next false c s).2 = s := by
          by_cases hb' : c = '/' ∧ s.head? = some '*'
          · have hplus : s.tail.head? = some '+' := by
              by_contra hplus
              exact hb ⟨hb'.1, hb'.2, hplus⟩
            rw [next_hint hb' hplus]
            rfl
          · rw [next_char hq hl hb']
        rw [hnext] at hmore
        rw [strip_single hsingle, pair_infix_cons]
        rintro (⟨hc, hhead⟩ | h)
        · have hb : s.head? = some b := by
            by_contra hne
            exact strip_head_ne hne hblank hline hhead
          exact hno c s hs hsingle ⟨hc, hb⟩
        · exact hrest s hnext.symm hmore h

/-- **There is nothing left to strip.** For a reader that takes a hint for characters, every stripped statement reads as the
statement did with its comments blanked out: it has quoted texts and single characters only, and to strip it again does
nothing. -/
theorem strip_clean (sql : List Char) :
    pieces false (stripComments sql) = blank (pieces false sql) ∧
      (∀ p ∈ pieces false (stripComments sql), (∃ text, p = .quoted text) ∨ ∃ c, p = .char c) ∧
      stripComments (stripComments sql) = stripComments sql := by
  have hpieces := stripComments_pieces false sql fun h => absurd h Bool.false_ne_true
  refine ⟨hpieces, fun p hp => ?_, ?_⟩
  · rw [hpieces] at hp
    obtain ⟨p', hp', hblank⟩ := List.mem_filterMap.mp hp
    cases p' with
    | quoted text => exact Or.inl ⟨text, (Option.some_inj.mp hblank).symm⟩
    | line text => exact absurd hblank (by simp [Piece.blank])
    | block text => exact Or.inr ⟨' ', (Option.some_inj.mp hblank).symm⟩
    | hint text => exact absurd hp' (hint_not_mem sql text)
    | char c => exact Or.inr ⟨c, (Option.some_inj.mp hblank).symm⟩
  · rw [strip_eq_text (stripComments sql), hpieces, blank_blank, ← strip_eq_text]

/-- **Hints and meaning stay.** A reader that knows hints sees the statement as before with its comments blanked out, if no
hint has a quote or the start of a comment in it and none has a star right behind it. -/
theorem strip_keeps_hints {sql : List Char} (h : HintsPlain (pieces true sql)) :
    pieces true (stripComments sql) = blank (pieces true sql) := stripComments_pieces true sql fun _ => h

/-- `/*+A*/ B--C`. -/
def hinted : List Char := ['/', '*', '+', 'A', '*', '/', ' ', 'B', '-', '-', 'C']

theorem strip_keeps_hints_one : pieces true (stripComments hinted) = blank (pieces true hinted) :=
  strip_keeps_hints (by simp [hinted, pieces_cons, next, comment, pieces, HintsPlain, PlainHint, List.infix_cons_iff])

/-- `/*+A*/*--B`: the star behind the hint makes a comment of the rest. -/
example : stripComments ['/', '*', '+', 'A', '*', '/', '*', '-', '-', 'B'] = ['/', '*', '+', 'A', '*', ' '] := by
  simp [stripComments, comment]

theorem next_hint_free {c : Char} {r : List Char} (h : ∀ text, Piece.hint text ∉ pieces true (c :: r)) :
    next true c r = next false c r := by
  rw [pieces_cons] at h
  exact next_of_no_hint fun text heq => h text (heq ▸ List.mem_cons_self)

/-- **The relay takes what is stripped.** It refuses a statement with the start of a comment anywhere, in strings too; after
the strip there is one only if a quoted text has it, or if the statement has a hint. -/
theorem strip_accepted {sql : List Char} (hhint : ∀ text, Piece.hint text ∉ pieces true sql)
    (hquoted : ∀ text, Piece.quoted text ∈ pieces false sql → ¬ ['-', '-'] <:+: text ∧ ¬ ['/', '*'] <:+: text) :
    ¬ ['-', '-'] <:+: stripComments sql ∧ ¬ ['/', '*'] <:+: stripComments sql := by
  constructor
  · exact strip_pair (P := fun _ => True) (by decide) (by decide) (by decide) (by decide) (by decide) (fun _ _ _ => trivial)
      (fun c r _ hsingle => hsingle.2.1) trivial fun text h => (hquoted text h).1
  · refine strip_pair (P := fun s => ∀ text, Piece.hint text ∉ pieces true s) (by decide) (by decide) (by decide) (by decide)
      (by decide) (fun c r hfree text hmem => ?_) (fun c r hfree hsingle hstart => ?_) hhint fun text h => (hquoted text h).2
    · refine hfree text ?_
      rw [pieces_cons, next_hint_free hfree]
      exact List.mem_cons_of_mem _ hmem
    · -- what is left of a block comment's start is that of a hint
      have hplus : r.tail.head? = some '+' := by
        by_contra hplus
        exact hsingle.2.2 ⟨hstart.1, hstart.2, hplus⟩
      apply hfree (c :: '*' :: (comment r.tail).1)
      rw [pieces_cons, next_hint hstart hplus]
      exact List.mem_cons_self

/-- A quoted text, and a line comment with the start of a hint in it. -/
theorem strip_accepted_one :
    ¬ ['-', '-'] <:+: stripComments ['\'', 'A', '\'', '-', '-', '/', '*', '+'] ∧
      ¬ ['/', '*'] <:+: stripComments ['\'', 'A', '\'', '-', '-', '/', '*', '+'] :=
  strip_accepted (by simp [pieces_cons, next, quoted, pieces]) (by simp [pieces_cons, next, quoted, pieces, List.infix_cons_iff])

end TtAiops.Ingest
