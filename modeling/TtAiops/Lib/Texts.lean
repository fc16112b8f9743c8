import Mathlib.Data.List.DropRight

/-!
# Texts without the white space around them

* `isWhitespace`, `trim`, `trimmed` : the white space of Unicode, and a text without that at its ends;
* `trim_of_ends` : what neither begins nor ends with white space stays;
* `forall_mem_intercalate` : what is true of the separator and of every part is true of the whole text.
-/

namespace TtAiops.Lib.Texts

/-- The code points with the property `White_Space`. -/
def isWhitespace (c : Char) : Bool :=
  (9 ≤ c.toNat && c.toNat ≤ 13) || (0x2000 ≤ c.toNat && c.toNat ≤ 0x200A) ||
    [0x20, 0x85, 0xA0, 0x1680, 0x2028, 0x2029, 0x202F, 0x205F, 0x3000].contains c.toNat

def trim (s : List Char) : List Char := (s.dropWhile isWhitespace).rdropWhile isWhitespace

/-- `str::trim`. -/
def trimmed (s : String) : String := String.ofList (trim s.toList)

@[simp] theorem trim_nil : trim [] = [] := rfl

theorem trim_of_ends {s : List Char} (hfront : ∀ c ∈ s.head?, isWhitespace c = false)
    (hback : ∀ c ∈ s.getLast?, isWhitespace c = false) : trim s = s := by
  have hdrop : s.dropWhile isWhitespace = s := by
    cases s with
    | nil => rfl
    | cons c cs => exact List.dropWhile_cons_of_neg (by simp [hfront c rfl])
  unfold trim
  rw [hdrop, List.rdropWhile_eq_self_iff]
  intro hne
  simp [hback _ (List.getLast?_eq_some_getLast hne)]

theorem forall_mem_intercalate {p : Char → Prop} {sep : Char} (hsep : p sep) :
    ∀ {parts : List (List Char)}, (∀ l ∈ parts, ∀ c ∈ l, p c) → ∀ c ∈ [sep].intercalate parts, p c
  | [], _ => by simp
  | [l], hparts => by simpa using hparts
  | l :: l' :: parts, hparts => by
    have hrest : ∀ c ∈ [sep].intercalate (l' :: parts), p c :=
      forall_mem_intercalate hsep fun k hk => hparts k (List.mem_cons_of_mem _ hk)
    rw [List.intercalate_cons_cons]
    intro c hc
    rcases List.mem_append.mp hc with hc | hc
    · rcases List.mem_append.mp hc with hc | hc
      · exact hparts l List.mem_cons_self c hc
      · rw [List.mem_singleton.mp hc]
        exact hsep
    · exact hrest c hc

end TtAiops.Lib.Texts
