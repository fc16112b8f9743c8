import Mathlib

/-!
# Texts as they are stored in UTF-8

A text is a list of characters; its length and the places in it are counted in bytes, and it can only be cut between two
characters.

* `bytes`, `len` : the bytes of a text and how many there are;
* `splitAt`, `slice` : a text cut at a place, and a part of it, if these places are between characters;
* `splitAt_eq_some`, `slice_eq_some` : what these parts are; `splitAt_back` : a cut a byte before the end of a character;
* `find`, `contains`, `replace` : patterns in a text; `find_spec` : **what is found is the first occurrence**;
* `splitAt_of_ascii` : **a text that begins with so many ASCII bytes can be cut behind them**, and these are its characters.
-/

namespace TtAiops.Lib.Utf8

def bytes (s : List Char) : List UInt8 := s.flatMap String.utf8EncodeChar

def len (s : List Char) : ℕ := (bytes s).length

/-- The text up to a byte and the text from it on, if that is the first byte of a character or the end. -/
def splitAt : ℕ → List Char → Option (List Char × List Char)
  | 0, s => some ([], s)
  | _ + 1, [] => none
  | n + 1, c :: s => if c.utf8Size ≤ n + 1 then (splitAt (n + 1 - c.utf8Size) s).map fun p => (c :: p.1, p.2) else none

/-- The text from the byte `i` to the byte `j`. -/
def slice (i j : ℕ) (s : List Char) : Option (List Char) := do
  let (front, _) ← splitAt j s
  let (_, part) ← splitAt i front
  some part

@[simp] theorem splitAt_zero (s : List Char) : splitAt 0 s = some ([], s) := by rw [splitAt]

@[simp] theorem len_nil : len [] = 0 := rfl

@[simp] theorem len_cons (c : Char) (s : List Char) : len (c :: s) = c.utf8Size + len s := by
  simp [len, bytes]

@[simp] theorem len_append (s t : List Char) : len (s ++ t) = len s + len t := by
  simp [len, bytes]

@[simp] theorem bytes_append (s t : List Char) : bytes (s ++ t) = bytes s ++ bytes t :=
  List.flatMap_append

theorem splitAt_eq_some {n : ℕ} {s a b : List Char} : splitAt n s = some (a, b) ↔ s = a ++ b ∧ len a = n := by
  induction n using Nat.strong_induction_on generalizing s a b with
  | _ n ih =>
    cases n with
    | zero =>
      cases a with
      | nil => simp
      | cons c a =>
        have hc := Char.utf8Size_pos c
        simp only [splitAt_zero, Option.some.injEq, Prod.mk.injEq, len_cons]
        exact iff_of_false (by simp) (by omega)
    | succ n =>
      cases s with
      | nil =>
        cases a <;> simp [splitAt]
      | cons c s =>
        have hc := Char.utf8Size_pos c
        have hrest : ∀ a' b', splitAt (n + 1 - c.utf8Size) s = some (a', b') ↔ s = a' ++ b' ∧ len a' = n + 1 - c.utf8Size :=
          fun a' b' => ih _ (by omega)
        rw [splitAt]
        split_ifs with hle
        · cases a with
          | nil => simp
          | cons c' a =>
            simp only [Option.map_eq_some_iff, Prod.exists, Prod.mk.injEq, List.cons.injEq, List.cons_append, len_cons]
            constructor
            · intro ⟨a', b', hsplit, ⟨hcc, haa⟩, hbb⟩
              subst hcc haa hbb
              obtain ⟨hs, hlen⟩ := (hrest _ _).mp hsplit
              exact ⟨⟨rfl, hs⟩, by omega⟩
            · intro ⟨⟨hcc, hs⟩, hlen⟩
              subst hcc
              exact ⟨a, b, (hrest _ _).mpr ⟨hs, by omega⟩, ⟨rfl, rfl⟩, rfl⟩
        · refine iff_of_false (by simp) fun ⟨hs, hlen⟩ => ?_
          cases a with
          | nil => simp at hlen
          | cons c' a =>
            obtain ⟨rfl, -⟩ := List.cons.inj hs
            rw [len_cons] at hlen
            omega

theorem splitAt_append (a s : List Char) (n : ℕ) :
    splitAt (len a + n) (a ++ s) = (splitAt n s).map fun p => (a ++ p.1, p.2) := by
  induction a with
  | nil => simp
  | cons c a ih =>
    have hc := Char.utf8Size_pos c
    obtain ⟨m, hm⟩ : ∃ m, len (c :: a) + n = m + 1 := ⟨len (c :: a) + n - 1, by rw [len_cons]; omega⟩
    have hrest : m + 1 - c.utf8Size = len a + n := by
      rw [len_cons] at hm
      omega
    rw [hm, List.cons_append, splitAt, if_pos (by rw [len_cons] at hm; omega), hrest, ih, Option.map_map]
    rfl

/-- The place a byte before the end of a character is between two characters only if the character has one byte. -/
theorem splitAt_back (a s : List Char) (c : Char) :
    (splitAt (len (a ++ [c]) - 1) (a ++ c :: s)).isSome ↔ c.utf8Size = 1 := by
  have hc := Char.utf8Size_pos c
  have hplace : len (a ++ [c]) - 1 = len a + (c.utf8Size - 1) := by
    rw [len_append, len_cons, len_nil]
    omega
  rw [hplace, splitAt_append, Option.isSome_map]
  cases hsize : c.utf8Size - 1 with
  | zero => simp; omega
  | succ n =>
    rw [splitAt, if_neg (by omega)]
    simp
    omega

theorem slice_eq_some {i j : ℕ} {s p : List Char} :
    slice i j s = some p ↔ ∃ a b, s = a ++ p ++ b ∧ len a = i ∧ len (a ++ p) = j := by
  simp only [slice, Option.bind_eq_bind, Option.bind_eq_some_iff, Prod.exists, splitAt_eq_some, Option.some.injEq]
  refine ⟨fun ⟨f, b, ⟨hs, hj⟩, a, q, ⟨hf, hi⟩, hq⟩ => ?_, fun ⟨a, b, hs, hi, hj⟩ => ?_⟩
  · subst hq hf
    exact ⟨a, b, hs, hi, hj⟩
  · exact ⟨a ++ p, b, ⟨hs, hj⟩, a, p, ⟨rfl, hi⟩, rfl⟩

theorem slice_eq {s a p b : List Char} (hs : s = a ++ p ++ b) : slice (len a) (len (a ++ p)) s = some p :=
  slice_eq_some.mpr ⟨a, b, hs, rfl, rfl⟩

/-- Of two cuts of a text the one further back has the other in front of it. -/
theorem exists_between {a b x y : List Char} (h : a ++ b = x ++ y) (hle : len a ≤ len x) :
    ∃ c, x = a ++ c ∧ b = c ++ y := by
  rcases List.append_eq_append_iff.mp h with ⟨c, hx, hb⟩ | ⟨c, ha, hy⟩
  · exact ⟨c, hx, hb⟩
  · cases c with
    | nil => exact ⟨[], by simpa using ha.symm, by simpa using hy.symm⟩
    | cons d c =>
      have hd := Char.utf8Size_pos d
      rw [ha, len_append, len_cons] at hle
      omega

/-! ## Patterns -/

/-- The byte where a pattern occurs first. -/
def find (pat : List Char) : List Char → Option ℕ
  | [] => if pat = [] then some 0 else none
  | c :: s => if pat <+: c :: s then some 0 else (find pat s).map (c.utf8Size + ·)

def contains (pat s : List Char) : Bool := (find pat s).isSome

/-- What comes instead of the occurrences of a pattern, after `skip` characters that belong to the last one. -/
def replaceFrom (pat new : List Char) : ℕ → List Char → List Char
  | _, [] => []
  | skip + 1, _ :: s => replaceFrom pat new skip s
  | 0, c :: s => if pat <+: c :: s then new ++ replaceFrom pat new (pat.length - 1) s else c :: replaceFrom pat new 0 s

/-- The occurrences of a pattern from the front on, none over another, give way to `new`. The empty pattern occurs between
all characters. -/
def replace (pat new s : List Char) : List Char :=
  if pat = [] then new ++ s.flatMap fun c => c :: new else replaceFrom pat new 0 s

/-- The first occurrence of a pattern. -/
structure First (pat s front rest : List Char) : Prop where
  occurs : s = front ++ pat ++ rest
  earliest : ∀ a b, s = a ++ pat ++ b → front.length ≤ a.length

theorem First.unique {pat s f f' r r' : List Char} (h : First pat s f r) (h' : First pat s f' r') : f = f' ∧ r = r' := by
  have hlen : f.length = f'.length := le_antisymm (h.earliest f' r' h'.occurs) (h'.earliest f r h.occurs)
  have heq := h.occurs.symm.trans h'.occurs
  rw [List.append_assoc, List.append_assoc] at heq
  obtain ⟨hf, hr⟩ := List.append_inj heq hlen
  exact ⟨hf, List.append_cancel_left hr⟩

theorem find_spec (pat s : List Char) : (find pat s = none ∧ ¬pat <:+: s) ∨
    ∃ front rest, find pat s = some (len front) ∧ First pat s front rest := by
  induction s with
  | nil =>
    by_cases h : pat = []
    · exact Or.inr ⟨[], [], if_pos h, by rw [h]; rfl, fun a b _ => Nat.zero_le _⟩
    · exact Or.inl ⟨if_neg h, fun hin => h (List.infix_nil.mp hin)⟩
  | cons c s ih =>
    rw [find]
    by_cases hfront : pat <+: c :: s
    · obtain ⟨rest, hrest⟩ := hfront
      exact Or.inr ⟨[], rest, if_pos ⟨rest, hrest⟩, hrest.symm, fun a b _ => Nat.zero_le _⟩
    · rw [if_neg hfront]
      rcases ih with ⟨hnone, hno⟩ | ⟨front, rest, hsome, hfirst⟩
      · refine Or.inl ⟨by rw [hnone, Option.map_none], fun hin => ?_⟩
        exact (List.infix_cons_iff.mp hin).elim hfront hno
      · refine Or.inr ⟨c :: front, rest, by rw [hsome, Option.map_some, len_cons], ?_, fun a b hab => ?_⟩
        · rw [hfirst.occurs]
          simp
        · cases a with
          | nil => exact absurd ⟨b, hab.symm⟩ hfront
          | cons d a =>
            obtain ⟨-, hs⟩ := List.cons.inj hab
            exact Nat.succ_le_succ (hfirst.earliest a b hs)

theorem First.not_mem {c : Char} {s front rest : List Char} (h : First [c] s front rest) : c ∉ front := by
  intro hc
  obtain ⟨a, b, rfl⟩ := List.append_of_mem hc
  have hlen := h.earliest a (b ++ [c] ++ rest) (by rw [h.occurs]; simp)
  rw [List.length_append, List.length_cons] at hlen
  omega

theorem First.of_not_mem {c : Char} {front : List Char} (h : c ∉ front) (rest : List Char) :
    First [c] (front ++ [c] ++ rest) front rest := by
  refine ⟨rfl, fun a b hab => ?_⟩
  by_contra hlt
  rcases List.append_eq_append_iff.mp (show front ++ c :: rest = a ++ c :: b by simpa using hab) with
    ⟨d, ha, -⟩ | ⟨d, hfront, hb⟩
  · rw [ha, List.length_append] at hlt
    omega
  · cases d with
    | nil => simp [hfront] at hlt
    | cons c' d =>
      obtain ⟨rfl, -⟩ := List.cons.inj hb
      exact h (hfront ▸ List.mem_append_right a List.mem_cons_self)

/-! ## ASCII -/

theorem utf8EncodeChar_of_ascii {c : Char} (h : c.toNat < 128) : String.utf8EncodeChar c = [c.val.toUInt8] :=
  String.utf8EncodeChar_eq_singleton (Char.utf8Size_eq_one_iff.mpr (UInt32.le_iff_toNat_le.mpr (Nat.le_of_lt_succ h)))

/-- Every character outside ASCII begins with a byte outside ASCII. -/
theorem ascii_of_head {c : Char} (h : ∀ b ∈ (String.utf8EncodeChar c).head?, b < 128) : c.toNat < 128 := by
  have hor : ∀ x y : UInt8, 128 ≤ y.toNat → ¬ x ||| y < 128 := fun x y hy => by
    rw [UInt8.lt_iff_toNat_lt, UInt8.toNat_or, not_lt]
    exact hy.trans Nat.right_le_or
  rcases Char.utf8Size_eq c with h1 | h2 | h3 | h4
  · exact Nat.lt_succ_of_le (UInt32.le_iff_toNat_le.mp (Char.utf8Size_eq_one_iff.mp h1))
  · rw [String.utf8EncodeChar_eq_cons_cons h2] at h
    exact absurd (h _ rfl) (hor _ _ (by decide))
  · rw [String.utf8EncodeChar_eq_cons_cons_cons h3] at h
    exact absurd (h _ rfl) (hor _ _ (by decide))
  · rw [String.utf8EncodeChar_eq_cons_cons_cons_cons h4] at h
    exact absurd (h _ rfl) (hor _ _ (by decide))

theorem bytes_cons_of_ascii {c : Char} (h : c.toNat < 128) (s : List Char) : bytes (c :: s) = c.val.toUInt8 :: bytes s := by
  rw [bytes, List.flatMap_cons, utf8EncodeChar_of_ascii h]
  rfl

theorem bytes_of_ascii {s : List Char} (h : ∀ c ∈ s, c.toNat < 128) : bytes s = s.map fun c => c.val.toUInt8 := by
  induction s with
  | nil => rfl
  | cons c s ih =>
    rw [bytes_cons_of_ascii (h c List.mem_cons_self), ih fun c' hc' => h c' (List.mem_cons_of_mem c hc'), List.map_cons]

theorem len_of_ascii {s : List Char} (h : ∀ c ∈ s, c.toNat < 128) : len s = s.length := by
  rw [len, bytes_of_ascii h, List.length_map]

/-- **A text that begins with `n` ASCII bytes can be cut behind them**, and they are its first `n` characters. -/
theorem splitAt_of_ascii {n : ℕ} {s : List Char} (hn : n ≤ len s) (h : ∀ b ∈ (bytes s).take n, b < 128) :
    ∃ a b, splitAt n s = some (a, b) ∧ s = a ++ b ∧ (∀ c ∈ a, c.toNat < 128) ∧ a.length = n := by
  induction n generalizing s with
  | zero => exact ⟨[], s, splitAt_zero s, rfl, fun c hc => absurd hc List.not_mem_nil, rfl⟩
  | succ n ih =>
    cases s with
    | nil => exact absurd hn (by simp)
    | cons c s =>
      have hascii : c.toNat < 128 := by
        refine ascii_of_head fun b hb => h b ?_
        rw [bytes, List.flatMap_cons]
        cases henc : String.utf8EncodeChar c with
        | nil => simp [henc] at hb
        | cons b' bs =>
          rw [henc] at hb
          obtain rfl := Option.some.inj hb
          exact List.mem_cons_self
      rw [bytes_cons_of_ascii hascii, List.take_succ_cons] at h
      have hsize : c.utf8Size = 1 := by
        rw [← String.length_utf8EncodeChar, utf8EncodeChar_of_ascii hascii]
        rfl
      rw [len_cons, hsize] at hn
      obtain ⟨a, b, hsplit, rfl, ha, hlen⟩ := ih (by omega) fun b' hb' => h b' (List.mem_cons_of_mem _ hb')
      refine ⟨c :: a, b, ?_, rfl, List.forall_mem_cons.mpr ⟨hascii, ha⟩, by rw [List.length_cons, hlen]⟩
      rw [splitAt, hsize, if_pos (by omega), Nat.add_sub_cancel, hsplit]
      rfl

end TtAiops.Lib.Utf8
