import TtAiops.Lib.Maps

/-!
# Writers and readers of structured values

A value is written as a tree, and stored by something that keeps the trees but for the order of the fields of an object.

* `Value`, `Stored` : the trees, and a tree as it comes back; `stored_refl`;
* `Codec` : a writer and a reader that **reads what was written, as it comes back**;
* `Codec.str`, `Codec.nat`, `Codec.map`, `Codec.opt`, `Codec.list`, `Codec.keyed` : texts, numbers, other types, options,
  lists, and maps with texts as keys;
* `Elems`, `Codec.tuple` : tuples, one component after the other;
* `Fields`, `Codec.record` : records, one field after the other, read by their names.
-/

namespace TtAiops.Lib

inductive Value
  | null
  | num (n : ℤ)
  | str (s : String)
  | arr (vs : List Value)
  | obj (es : List (String × Value))

inductive Stored : Value → Value → Prop
  | null : Stored .null .null
  | num (n : ℤ) : Stored (.num n) (.num n)
  | str (s : String) : Stored (.str s) (.str s)
  | arr {vs ws : List Value} : List.Forall₂ Stored vs ws → Stored (.arr vs) (.arr ws)
  | obj {es fs gs : List (String × Value)} : es.Perm fs → fs.map Prod.fst = gs.map Prod.fst →
      List.Forall₂ Stored (fs.map Prod.snd) (gs.map Prod.snd) → Stored (.obj es) (.obj gs)

theorem sizeOf_snd_lt {e : String × Value} {es : List (String × Value)} (he : e ∈ es) : sizeOf e.2 < sizeOf es := by
  have hlt : sizeOf e < sizeOf es := List.sizeOf_lt_of_mem he
  have hsnd : sizeOf e.2 < sizeOf e := by
    cases e
    simp
  omega

theorem stored_refl : ∀ v, Stored v v
  | .null => .null
  | .num n => .num n
  | .str s => .str s
  | .arr vs => .arr (List.forall₂_same.mpr fun v hv =>
      have : sizeOf v < sizeOf vs := List.sizeOf_lt_of_mem hv
      stored_refl v)
  | .obj es => .obj (List.Perm.refl es) rfl
      (List.forall₂_map_left_iff.mpr (List.forall₂_map_right_iff.mpr (List.forall₂_same.mpr fun e he =>
        have : sizeOf e.2 < sizeOf es := sizeOf_snd_lt he
        stored_refl e.2)))
termination_by v => sizeOf v

theorem Stored.ne_null {v w : Value} (h : Stored v w) (hv : v ≠ .null) : w ≠ .null := by
  cases h with
  | null => exact absurd rfl hv
  | num n => exact Value.noConfusion
  | str s => exact Value.noConfusion
  | arr _ => exact Value.noConfusion
  | obj _ _ _ => exact Value.noConfusion

structure Codec (A : Type) where
  write : A → Value
  read : Value → Option A
  read_write : ∀ {a v}, Stored (write a) v → read v = some a

namespace Codec

variable {A B : Type}

def str : Codec String where
  write := Value.str
  read
    | .str s => some s
    | _ => none
  read_write h := by
    cases h
    rfl

def nat : Codec ℕ where
  write n := .num n
  read
    | .num n => if 0 ≤ n then some n.toNat else none
    | _ => none
  read_write h := by
    cases h
    simp

/-- What is written as something else. -/
def map (c : Codec A) (f : B → A) (g : A → Option B) (hgf : ∀ b, g (f b) = some b) : Codec B where
  write b := c.write (f b)
  read v := (c.read v).bind g
  read_write h := by
    rw [c.read_write h]
    exact hgf _

def opt (c : Codec A) (hc : ∀ a, c.write a ≠ .null) : Codec (Option A) where
  write
    | some a => c.write a
    | none => .null
  read
    | .null => some none
    | v => (c.read v).map some
  read_write {a v} h := by
    cases a with
    | none =>
      cases h
      rfl
    | some a =>
      have hv : v ≠ .null := h.ne_null (hc a)
      cases v with
      | null => exact absurd rfl hv
      | num n => exact congrArg (Option.map some) (c.read_write h)
      | str s => exact congrArg (Option.map some) (c.read_write h)
      | arr vs => exact congrArg (Option.map some) (c.read_write h)
      | obj es => exact congrArg (Option.map some) (c.read_write h)

theorem mapM_read {C : Type} {R : B → C → Prop} {f : C → Option B} (hf : ∀ {b v}, R b v → f v = some b) {bs : List B}
    {vs : List C} (h : List.Forall₂ R bs vs) : vs.mapM f = some bs := by
  induction h with
  | nil => rfl
  | cons hbv _ ih =>
    rw [List.mapM_cons, hf hbv, ih]
    rfl

def list (c : Codec A) : Codec (List A) where
  write l := .arr (l.map c.write)
  read
    | .arr vs => vs.mapM c.read
    | _ => none
  read_write {l v} h := by
    cases h with
    | arr hvs => exact mapM_read (R := fun a v => Stored (c.write a) v) c.read_write (List.forall₂_map_left_iff.mp hvs)

def readEntry (c : Codec A) (e : String × Value) : Option (String × A) := (c.read e.2).map fun a => (e.1, a)

theorem forall₂_entries {R : A → Value → Prop} {l : List (String × A)} {gs : List (String × Value)}
    (hkeys : l.map Prod.fst = gs.map Prod.fst) (hvals : List.Forall₂ (fun e g => R e.2 g.2) l gs) :
    List.Forall₂ (fun e g => e.1 = g.1 ∧ R e.2 g.2) l gs := by
  induction hvals with
  | nil => exact List.Forall₂.nil
  | cons hval _ ih =>
    rw [List.map_cons, List.map_cons, List.cons.injEq] at hkeys
    exact List.Forall₂.cons ⟨hkeys.1, hval⟩ (ih hkeys.2)

/-- The stored fields of an object are those that were written, in some order. -/
theorem exists_perm_of_stored {f : A → Value} {l : List (String × A)} {v : Value}
    (h : Stored (.obj (l.map fun e => (e.1, f e.2))) v) : ∃ gs l', v = .obj gs ∧ l'.Perm l ∧
      List.Forall₂ (fun e g => e.1 = g.1 ∧ Stored (f e.2) g.2) l' gs := by
  cases h with
  | @obj _ fs gs hperm hkeys hvals =>
    have hcomp : Relation.Comp (· = List.map (fun e : String × A => (e.1, f e.2)) ·) List.Perm fs l := by
      rw [List.eq_map_comp_perm]
      exact hperm.symm
    obtain ⟨l', rfl, hl'⟩ := hcomp
    rw [List.map_map] at hkeys hvals
    rw [List.forall₂_map_left_iff, List.forall₂_map_right_iff] at hvals
    exact ⟨gs, l', rfl, hl', forall₂_entries (R := fun a v => Stored (f a) v) hkeys hvals⟩

/-- A map whose keys are texts, in the order of its keys. -/
def keyed (c : Codec A) : Codec (Finmap fun _ : String => A) where
  write m := .obj ((entriesBy (Equiv.refl String) m).map fun e => (e.1, c.write e.2))
  read
    | .obj es => (es.mapM c.readEntry).map insertAll
    | _ => none
  read_write {m v} h := by
    obtain ⟨gs, l, rfl, hperm, hread⟩ := exists_perm_of_stored h
    have hentries : gs.mapM c.readEntry = some l := by
      refine mapM_read (fun {e g} hg => ?_) hread
      unfold readEntry
      rw [c.read_write hg.2, ← hg.1]
      rfl
    have hall : insertAll l = m := by
      rw [← insertAll_entriesBy (Equiv.refl String) m]
      exact (insertAll_perm (nodup_entriesBy _ m) hperm.symm).symm
    show (gs.mapM c.readEntry).map insertAll = some m
    rw [hentries, ← hall]
    rfl

end Codec

/-! ## Tuples -/

/-- The components of a tuple. -/
structure Elems (A : Type) where
  write : A → List Value
  read : List Value → Option A
  read_write : ∀ {a vs}, List.Forall₂ Stored (write a) vs → read vs = some a

namespace Elems

variable {A B : Type}

def last (c : Codec A) : Elems A where
  write a := [c.write a]
  read
    | [v] => c.read v
    | _ => none
  read_write h := by
    cases h with
    | cons hv hnil =>
      cases hnil
      exact c.read_write hv

def cons (c : Codec A) (e : Elems B) : Elems (A × B) where
  write p := c.write p.1 :: e.write p.2
  read
    | v :: vs => (c.read v).bind fun a => (e.read vs).map fun b => (a, b)
    | [] => none
  read_write h := by
    cases h with
    | cons hv hvs =>
      dsimp only
      rw [c.read_write hv, e.read_write hvs]
      rfl

end Elems

def Codec.tuple {A : Type} (e : Elems A) : Codec A where
  write a := .arr (e.write a)
  read
    | .arr vs => e.read vs
    | _ => none
  read_write h := by
    cases h with
    | arr hvs => exact e.read_write hvs

/-! ## Records -/

def fieldOf (es : List (String × Value)) (name : String) : Option Value := (es.find? fun e => e.1 = name).map Prod.snd

structure Fields (A : Type) where
  names : List String
  write : A → List (String × Value)
  read : (String → Option Value) → Option A
  names_write : ∀ a, (write a).map Prod.fst = names
  read_write : ∀ {a look}, (∀ e ∈ write a, ∃ v, look e.1 = some v ∧ Stored e.2 v) → read look = some a

namespace Fields

variable {A B : Type}

def one (name : String) (c : Codec A) : Fields A where
  names := [name]
  write a := [(name, c.write a)]
  read look := (look name).bind c.read
  names_write _ := rfl
  read_write h := by
    obtain ⟨v, hv, hstored⟩ := h _ List.mem_cons_self
    rw [hv]
    exact c.read_write hstored

/-- A field that may be missing, and is then nothing. -/
def default (name : String) (c : Codec (Option A)) : Fields (Option A) where
  names := [name]
  write a := [(name, c.write a)]
  read look :=
    match look name with
    | some v => c.read v
    | none => some none
  names_write _ := rfl
  read_write h := by
    obtain ⟨v, hv, hstored⟩ := h _ List.mem_cons_self
    rw [hv]
    exact c.read_write hstored

def and (f : Fields A) (g : Fields B) : Fields (A × B) where
  names := f.names ++ g.names
  write p := f.write p.1 ++ g.write p.2
  read look := (f.read look).bind fun a => (g.read look).map fun b => (a, b)
  names_write p := by rw [List.map_append, f.names_write, g.names_write]
  read_write h := by
    rw [f.read_write fun e he => h e (List.mem_append_left _ he), g.read_write fun e he => h e (List.mem_append_right _ he)]
    rfl

end Fields

theorem field_of_forall₂ {es gs : List (String × Value)} (hes : (es.map Prod.fst).Nodup)
    (h : List.Forall₂ (fun e g => e.1 = g.1 ∧ Stored e.2 g.2) es gs) :
    ∀ e ∈ es, ∃ w, fieldOf gs e.1 = some w ∧ Stored e.2 w := by
  induction h with
  | nil => exact fun e he => absurd he List.not_mem_nil
  | @cons e g es gs heg _ ih =>
    rw [List.map_cons, List.nodup_cons] at hes
    intro e' he'
    unfold fieldOf
    rcases List.mem_cons.mp he' with rfl | he'
    · rw [List.find?_cons_of_pos (by simp [heg.1])]
      exact ⟨g.2, rfl, heg.2⟩
    · have hne : g.1 ≠ e'.1 := fun heq => hes.1 (heg.1.trans heq ▸ List.mem_map_of_mem he')
      rw [List.find?_cons_of_neg (by simpa using hne)]
      exact ih hes.2 e' he'

theorem field_of_stored {es : List (String × Value)} (hes : (es.map Prod.fst).Nodup) {v : Value} (h : Stored (.obj es) v) :
    ∃ gs, v = .obj gs ∧ ∀ e ∈ es, ∃ w, fieldOf gs e.1 = some w ∧ Stored e.2 w := by
  have hmap : es.map (fun e => (e.1, e.2)) = es := List.map_id es
  obtain ⟨gs, l, rfl, hperm, hread⟩ := Codec.exists_perm_of_stored (f := fun v => v) (hmap.symm ▸ h)
  have hl : (l.map Prod.fst).Nodup := (hperm.map _).nodup_iff.mpr hes
  exact ⟨gs, rfl, fun e he => field_of_forall₂ hl hread e (hperm.mem_iff.mpr he)⟩

/-- A record whose fields have names of their own. -/
def Codec.record {A : Type} (f : Fields A) (hnames : f.names.Nodup) : Codec A where
  write a := .obj (f.write a)
  read
    | .obj es => f.read (fieldOf es)
    | _ => none
  read_write {a v} h := by
    obtain ⟨gs, rfl, hfields⟩ := field_of_stored (by rw [f.names_write]; exact hnames) h
    exact f.read_write hfields

end TtAiops.Lib
