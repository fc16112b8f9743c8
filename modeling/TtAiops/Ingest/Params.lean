import TtAiops.Lib.Utf8

/-!
# Filling the placeholders of a query (`params.rs`)

Where a placeholder is left, the message shows the text from it on, cut after so many bytes.

* `render` : the filled text, or the message; `none` where a cut would end the program;
* `substituted` : the text after all substitutions;
* `RenderTotal` : what is left decides between the two, and there is one of them;
* `CutFits`, `render_total_iff` : **there is, exactly if the cut is not inside a character**.
-/

namespace TtAiops.Ingest.Params
open TtAiops.Lib

/-- A text that is left with a placeholder has this in it. -/
def braces : List Char := ['{', '{']

def unfilled : List Char := "SQL still has an unfilled placeholder near: ".toList

def substituted (template : List Char) (subs : List (List Char × List Char)) : List Char :=
  subs.foldl (fun out sub => if Utf8.contains sub.1 out then Utf8.replace sub.1 sub.2 out else out) template

def render (template : List Char) (subs : List (List Char × List Char)) : Option (Except (List Char) (List Char)) :=
  let out := substituted template subs
  match Utf8.find braces out with
  | some idx => do
    let tail ← Utf8.slice idx (min (Utf8.len out) (idx + 40)) out
    some (.error (unfilled ++ tail))
  | none => some (.ok out)

/-- A text without a placeholder is returned, and else there is a message. -/
structure RenderTotal (template : List Char) (subs : List (List Char × List Char)) : Prop where
  ok : ¬braces <:+: substituted template subs → ∃ out, render template subs = some (.ok out) ∧ ¬braces <:+: out
  err : braces <:+: substituted template subs → ∃ msg, render template subs = some (.error msg)

/-- At most 38 bytes follow the first braces of a text, or the first 38 of them end with a character. -/
def CutFits (out : List Char) : Prop :=
  ∀ front rest, Utf8.First braces out front rest → Utf8.len rest ≤ 38 ∨ ∃ a b, rest = a ++ b ∧ Utf8.len a = 38

theorem len_braces : Utf8.len braces = 2 := by decide

theorem exists_slice_iff {out front rest : List Char} (h : Utf8.First braces out front rest) :
    (∃ tail, Utf8.slice (Utf8.len front) (min (Utf8.len out) (Utf8.len front + 40)) out = some tail) ↔
      Utf8.len rest ≤ 38 ∨ ∃ a b, rest = a ++ b ∧ Utf8.len a = 38 := by
  have hout : Utf8.len out = Utf8.len front + 2 + Utf8.len rest := by
    rw [h.occurs, Utf8.len_append, Utf8.len_append, len_braces]
  have hfront : Utf8.len (front ++ braces) = Utf8.len front + 2 := by rw [Utf8.len_append, len_braces]
  constructor
  · intro ⟨tail, htail⟩
    obtain ⟨a, b, hab, -, hlen⟩ := Utf8.slice_eq_some.mp htail
    refine or_iff_not_imp_left.mpr fun hlong => ?_
    obtain ⟨c, hc, hrest⟩ := Utf8.exists_between (h.occurs.symm.trans hab) (by omega)
    refine ⟨c, b, hrest, ?_⟩
    rw [hc, Utf8.len_append, hfront] at hlen
    omega
  · rintro (hshort | ⟨a, b, rfl, ha⟩)
    · have hall := Utf8.slice_eq (s := out) (a := front) (p := braces ++ rest) (b := []) (by simp [h.occurs])
      refine ⟨braces ++ rest, ?_⟩
      rwa [← List.append_assoc, ← h.occurs, ← min_eq_left (show Utf8.len out ≤ Utf8.len front + 40 by omega)] at hall
    · have hcut := Utf8.slice_eq (s := out) (a := front) (p := braces ++ a) (b := b) (by simp [h.occurs])
      refine ⟨braces ++ a, ?_⟩
      rw [Utf8.len_append] at hout
      have hmin : min (Utf8.len out) (Utf8.len front + 40) = Utf8.len front + 2 + 38 := by omega
      rwa [← List.append_assoc, Utf8.len_append, hfront, ha, ← hmin] at hcut

/-- **When a query is filled or refused**: exactly if the cut behind the first braces that are left, if there are any, does
not fall into a character. -/
theorem render_total_iff (template : List Char) (subs : List (List Char × List Char)) :
    RenderTotal template subs ↔ CutFits (substituted template subs) := by
  rcases Utf8.find_spec braces (substituted template subs) with ⟨hnone, hno⟩ | ⟨front, rest, hsome, hfirst⟩
  · refine iff_of_true ⟨fun _ => ⟨_, ?_, hno⟩, fun hin => absurd hin hno⟩ fun front rest hfirst => ?_
    · rw [render, hnone]
    · exact absurd ⟨front, rest, hfirst.occurs.symm⟩ hno
  · have hin : braces <:+: substituted template subs := ⟨front, rest, hfirst.occurs.symm⟩
    have hrender : render template subs = (Utf8.slice (Utf8.len front) (min (Utf8.len (substituted template subs))
        (Utf8.len front + 40)) (substituted template subs)).bind fun tail => some (.error (unfilled ++ tail)) := by
      rw [render, hsome]
      rfl
    constructor
    · intro htotal front' rest' hfirst'
      obtain ⟨rfl, rfl⟩ := hfirst.unique hfirst'
      obtain ⟨msg, hmsg⟩ := htotal.err hin
      rw [hrender, Option.bind_eq_some_iff] at hmsg
      obtain ⟨tail, htail, -⟩ := hmsg
      exact (exists_slice_iff hfirst).mp ⟨tail, htail⟩
    · intro hfits
      obtain ⟨tail, htail⟩ := (exists_slice_iff hfirst).mpr (hfits front rest hfirst)
      refine ⟨fun hno => absurd hin hno, fun _ => ⟨unfilled ++ tail, ?_⟩⟩
      rw [hrender, htail]
      rfl

/-- A placeholder that nothing fills, with eleven characters of three bytes behind it. -/
def koreanTemplate : List Char := "{{NOPE}}가가가가가가가가가가가".toList

theorem render_ends : ¬RenderTotal koreanTemplate [] := by
  intro htotal
  have hcut : render koreanTemplate [] = none := by decide +kernel
  obtain ⟨msg, hmsg⟩ := htotal.err ⟨[], koreanTemplate.drop 2, by decide +kernel⟩
  rw [hcut] at hmsg
  cases hmsg

end TtAiops.Ingest.Params
