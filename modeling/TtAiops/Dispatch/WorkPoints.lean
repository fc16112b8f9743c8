import TtAiops.Dispatch.Classify
import TtAiops.Lib.Averages
import TtAiops.Lib.LineFit

/-!
# Where work is handed over, as it is learned

Every fix of a truck that has arrived says where its place is. Of blocks and cranes the program keeps a centroid, of all cranes
together the line along which they hand over, and of each crane a centroid that forgets.

* `Centroid`, `QuayLine`, `CraneWp`, `learn` : what is kept, and what a fix does to it (`ingest_text`);
* `resolveCraneWp` : the work point of a crane (`resolve_crane_wp`);
* `samples`, `kept`, `Describes` : the fixes of a place, those that are not left out, and a centroid that describes them;
* `centroid_describes` : **a centroid is the weighted mean and variance of the fixes that are kept**;
* `quay_line_best` : **the line is there if the points stretch out, and then no other line is nearer to them**;
* `crane_work_point` : **the work point is the point of the line nearest to the faded mean of the handovers of the crane**,
  of all of them, however long ago.

A number is one of an ordered field, and the functions of the reals are given ones.
-/

namespace TtAiops.Dispatch.WorkPoints
open TtAiops.Lib TtAiops.Lib.LineFit
open TtAiops.Cycle (blockPrefix isCraneCode)

/-- What is taken from the library of the numbers. -/
structure Functions (K : Type*) where
  sqrt : K → K
  exp : K → K
  cos : K → K
  pi : K

variable {K : Type*} [Field K] (fn : Functions K)

/-! ## Coordinates -/

def METRES : K := 111320

def REF_LAT : K := 2926 / 1000

def REF_LON : K := 101290 / 1000

def distM (a b : K × K) : K :=
  let lat := half (a.1 + b.1) * fn.pi / 180
  let dx := (a.2 - b.2) * METRES * fn.cos lat
  let dy := (a.1 - b.1) * METRES
  fn.sqrt (dx * dx + dy * dy)

def mlon : K := METRES * fn.cos (REF_LAT * (fn.pi / 180))

def toLocal (lat lon : K) : K × K := ((lon - REF_LON) * mlon fn, (lat - REF_LAT) * METRES)

def fromLocal (x y : K) : K × K := (REF_LAT + y / METRES, REF_LON + x / mlon fn)

/-! ## What is learned -/

structure Centroid (K : Type*) where
  lat : K
  lon : K
  n : ℕ
  obs : ℕ
  varLat : K
  varLon : K

/-- The cap of the weight of a centroid. -/
def CAP : ℕ := 500

def CENTROID_GATE_M : K := 300

def CENTROID_GATE_MIN_N : ℕ := 10

namespace Centroid

def unseen : Centroid K := ⟨0, 0, 0, 0, 0, 0⟩

def push (c : Centroid K) (lat lon : K) : Centroid K :=
  let n := min (c.n + 1) CAP
  let k : K := 1 / n
  let dLat := lat - c.lat
  let dLon := lon - c.lon
  { lat := c.lat + dLat * k
    lon := c.lon + dLon * k
    n := n
    obs := c.obs + 1
    varLat := (1 - k) * (c.varLat + k * dLat * dLat)
    varLon := (1 - k) * (c.varLon + k * dLon * dLon) }

end Centroid

structure QuayLine (K : Type*) where
  n : K
  sx : K
  sy : K
  sxx : K
  syy : K
  sxy : K

namespace QuayLine

def unseen : QuayLine K := ⟨0, 0, 0, 0, 0, 0⟩

def push (q : QuayLine K) (x y : K) : QuayLine K :=
  ⟨q.n + 1, q.sx + x, q.sy + y, q.sxx + x * x, q.syy + y * y, q.sxy + x * y⟩

end QuayLine

def QuayLine.ofPoints (l : List (K × K)) : QuayLine K where
  n := l.length
  sx := (l.map Prod.fst).sum
  sy := (l.map Prod.snd).sum
  sxx := (l.map fun p => p.1 * p.1).sum
  syy := (l.map fun p => p.2 * p.2).sum
  sxy := (l.map fun p => p.1 * p.2).sum

theorem ofPoints_concat (l : List (K × K)) (p : K × K) :
    QuayLine.ofPoints (l ++ [p]) = (QuayLine.ofPoints l).push p.1 p.2 := by
  simp [QuayLine.ofPoints, QuayLine.push]

structure CraneWp (K : Type*) where
  lastMs : ℤ
  wx : K
  wy : K
  w : K
  obs : ℕ

def CRANE_WP_TAU_S : K := 900

namespace CraneWp

def unseen : CraneWp K := ⟨0, 0, 0, 0, 0⟩

/-- What is left of a weight after a time, in milliseconds. -/
def decay (t : ℤ) : K := fn.exp (-((t : K) / 1000) / CRANE_WP_TAU_S)

end CraneWp

/-! ## A centroid that describes fixes -/

def meanOf (l : List (K × K)) : K × K := (weigh Prod.fst (capped CAP l), weigh Prod.snd (capped CAP l))

/-- The centroid is that of the fixes: their number, their weighted mean and their weighted variance. -/
structure Describes (c : Centroid K) (l : List (K × K)) : Prop where
  n : c.n = min l.length CAP
  obs : c.obs = l.length
  mean : (c.lat, c.lon) = meanOf l
  varLat : c.varLat = weigh (fun p => (p.1 - c.lat) ^ 2) (capped CAP l)
  varLon : c.varLon = weigh (fun p => (p.2 - c.lon) ^ 2) (capped CAP l)

theorem describes_unseen : Describes (Centroid.unseen : Centroid K) [] := ⟨rfl, rfl, rfl, rfl, rfl⟩

section
variable [CharZero K]

theorem Describes.push {c : Centroid K} {l : List (K × K)} (h : Describes c l) (p : K × K) :
    Describes (c.push p.1 p.2) (l ++ [p]) := by
  have hn : min (c.n + 1) CAP = min (l.length + 1) CAP := by
    rw [h.n]
    unfold CAP
    omega
  have hcapped : capped CAP (l ++ [p]) = mix (1 / ((min (c.n + 1) CAP : ℕ) : K)) (capped CAP l) p := by
    rw [hn]
    exact capped_concat CAP l p
  have htotal : weigh (fun _ => 1) (capped CAP l : List (K × K × K)) = 1 ∨ 1 / ((min (c.n + 1) CAP : ℕ) : K) = 1 := by
    by_cases hl : l = []
    · subst hl
      rw [hn]
      exact Or.inr (by simp [CAP])
    · exact Or.inl (weigh_one_capped (by decide) hl)
  obtain ⟨hlat, hlon⟩ := Prod.mk.inj h.mean
  have hlat' : (c.push p.1 p.2).lat = weigh Prod.fst (capped CAP (l ++ [p])) := by
    rw [hcapped, weigh_mix, ← hlat, mul_comm]
    rfl
  have hlon' : (c.push p.1 p.2).lon = weigh Prod.snd (capped CAP (l ++ [p])) := by
    rw [hcapped, weigh_mix, ← hlon, mul_comm]
    rfl
  constructor
  · rw [List.length_append]
    exact hn
  · rw [List.length_append, List.length_singleton, ← h.obs]
    rfl
  · exact Prod.ext hlat' hlon'
  · rw [hlat', hcapped, variance_mix Prod.fst htotal, ← hlat, ← h.varLat]
    unfold Centroid.push
    dsimp only
    ring
  · rw [hlon', hcapped, variance_mix Prod.snd htotal, ← hlon, ← h.varLon]
    unfold Centroid.push
    dsimp only
    ring

end

variable [LinearOrder K]

def Centroid.pushGated (c : Centroid K) (lat lon gate : K) : Centroid K :=
  if CENTROID_GATE_MIN_N ≤ c.n ∧ gate < distM fn (c.lat, c.lon) (lat, lon) then c else c.push lat lon

/-! ## The line and the work points -/

namespace QuayLine

/-- A point of the line and its direction, of length one. -/
def fit (q : QuayLine K) : Option ((K × K) × K × K) :=
  if q.n < 50 then none
  else
    let mx := q.sx / q.n
    let my := q.sy / q.n
    let cxx := q.sxx / q.n - mx * mx
    let cyy := q.syy / q.n - my * my
    let cxy := q.sxy / q.n - mx * my
    let tr := cxx + cyy
    let disc := fn.sqrt (max (tr * tr / 4 - (cxx * cyy - cxy * cxy)) 0)
    let l1 := half tr + disc
    if l1 < 400 then none
    else
      let d := if 1 / 1000000000 < |cxy| then (l1 - cyy, cxy) else if cyy ≤ cxx then (1, 0) else (0, 1)
      let norm := fn.sqrt (d.1 * d.1 + d.2 * d.2)
      if norm < 1 / 1000000000 then none else some ((mx, my), d.1 / norm, d.2 / norm)

def project (q : QuayLine K) (x y : K) : K × K :=
  match q.fit fn with
  | some (m, d) =>
    let t := (x - m.1) * d.1 + (y - m.2) * d.2
    (m.1 + t * d.1, m.2 + t * d.2)
  | none => (x, y)

end QuayLine

namespace CraneWp

/-- The weights before a handover at `now`. -/
def faded (c : CraneWp K) (now : ℤ) : CraneWp K :=
  if 0 < c.w ∧ 0 < c.lastMs then
    let d := decay fn (max (now - c.lastMs) 0)
    { c with
      wx := c.wx * d
      wy := c.wy * d
      w := c.w * d }
  else c

def push (c : CraneWp K) (x y : K) (now : ℤ) : CraneWp K :=
  let f := c.faded fn now
  ⟨now, f.wx + x, f.wy + y, f.w + 1, f.obs + 1⟩

def centroid (c : CraneWp K) : Option (K × K) := if 300 / 1000 < c.w then some (c.wx / c.w, c.wy / c.w) else none

end CraneWp

/-- What has been learned; a map is what it says of a key. -/
structure Learned (K : Type*) where
  centroids : String → Option (Centroid K)
  quayLine : QuayLine K
  craneWp : String → Option (CraneWp K)

def Learned.start : Learned K := ⟨fun _ => none, QuayLine.unseen, fun _ => none⟩

/-- A fix of a machine, as far as something is learned from it. -/
structure Fix (K : Type*) where
  cls : String
  lat : K
  lon : K
  arrival : Option String
  topos1 : Option String
  curLoc : Option String
  now : ℤ

/-- An entry changed, or first put in. -/
def entry {V : Type*} (m : String → Option V) (k : String) (unseen : V) (f : V → V) : String → Option V :=
  Function.update m k (some (f ((m k).getD unseen)))

/-- A block or a segment of the wharf, with the gate. -/
def learnGated (f : Fix K) (k : String) (m : String → Option (Centroid K)) : String → Option (Centroid K) :=
  entry m k .unseen fun c => c.pushGated fn f.lat f.lon CENTROID_GATE_M

def learnTopos (f : Fix K) (t : String) (s : Learned K) : Learned K :=
  if isCraneCode t then
    let p := toLocal fn f.lat f.lon
    { centroids := entry s.centroids t .unseen fun c => c.push f.lat f.lon
      quayLine := s.quayLine.push p.1 p.2
      craneWp := entry s.craneWp t .unseen fun c => c.push fn p.1 p.2 f.now }
  else
    let c := learnGated fn f t s.centroids
    { s with centroids := if blockPrefix t ≠ t then learnGated fn f (blockPrefix t) c else c }

def isWharf (cl : String) : Bool := "WHARF".toList.isPrefixOf cl.toList && cl != ""

def Fix.arrived (f : Fix K) : Bool := f.cls = "TT" ∧ f.arrival = some "ARRIVED"

def learnPlace (f : Fix K) (s : Learned K) : Learned K :=
  match f.topos1 with
  | some t => if t = "" then s else learnTopos fn f t s
  | none => s

def learnWharf (f : Fix K) (s : Learned K) : Learned K :=
  match f.curLoc with
  | some cl => if isWharf cl then { s with centroids := learnGated fn f cl s.centroids } else s
  | none => s

/-- What a fix teaches. -/
def learn (f : Fix K) (s : Learned K) : Learned K := if f.arrived then learnWharf fn f (learnPlace fn f s) else s

/-- The state after all fixes. -/
def after (fixes : List (Fix K)) : Learned K := fixes.foldl (fun s f => learn fn f s) Learned.start

/-- `resolve_crane_wp`: the work point of the crane `id`. -/
def resolveCraneWp (line : QuayLine K) (cwp : String → Option (CraneWp K)) (live : String → Option (K × K)) (id : String) :
    Option (K × K) :=
  match (cwp id).bind CraneWp.centroid with
  | some c =>
    let p := line.project fn c.1 c.2
    some (fromLocal fn p.1 p.2)
  | none => (live id).map fun l =>
    let q := toLocal fn l.1 l.2
    let p := line.project fn q.1 q.2
    fromLocal fn p.1 p.2

theorem after_concat (fixes : List (Fix K)) (f : Fix K) : after fn (fixes ++ [f]) = learn fn f (after fn fixes) :=
  List.foldl_concat ..

/-! ## What a fix adds -/

def Fix.handover (f : Fix K) : Option String := if f.arrived then f.topos1.filter isCraneCode else none

def quayPoints (fixes : List (Fix K)) : List (K × K) :=
  fixes.filterMap fun f => f.handover.map fun _ => toLocal fn f.lat f.lon

/-- The handovers at a crane, each with its time. -/
def handovers (id : String) (fixes : List (Fix K)) : List (ℤ × K × K) :=
  fixes.filterMap fun f => (f.handover.filter (· = id)).map fun _ => (f.now, toLocal fn f.lat f.lon)

theorem learnWharf_handover (f : Fix K) (s : Learned K) :
    (learnWharf fn f s).quayLine = s.quayLine ∧ (learnWharf fn f s).craneWp = s.craneWp := by
  unfold learnWharf
  cases f.curLoc with
  | none => exact ⟨rfl, rfl⟩
  | some cl =>
    dsimp only
    split_ifs <;> exact ⟨rfl, rfl⟩

theorem learn_handover (f : Fix K) (s : Learned K) :
    (learn fn f s).quayLine = (match f.handover with
      | some _ => s.quayLine.push (toLocal fn f.lat f.lon).1 (toLocal fn f.lat f.lon).2
      | none => s.quayLine) ∧
    (learn fn f s).craneWp = match f.handover with
      | some t => entry s.craneWp t .unseen fun c => c.push fn (toLocal fn f.lat f.lon).1 (toLocal fn f.lat f.lon).2 f.now
      | none => s.craneWp := by
  have hempty : isCraneCode "" = false := by decide
  unfold learn Fix.handover
  split_ifs
  · rw [(learnWharf_handover fn f _).1, (learnWharf_handover fn f _).2]
    unfold learnPlace
    cases f.topos1 with
    | none => exact ⟨rfl, rfl⟩
    | some t =>
      by_cases ht : t = ""
      · subst ht
        simp [Option.filter, hempty]
      · unfold learnTopos
        cases hcrane : isCraneCode t <;> simp [Option.filter, ht, hcrane]
  · exact ⟨rfl, rfl⟩

theorem after_quayLine (fixes : List (Fix K)) : (after fn fixes).quayLine = QuayLine.ofPoints (quayPoints fn fixes) := by
  induction fixes using List.reverseRecOn with
  | nil => simp [after, Learned.start, QuayLine.unseen, QuayLine.ofPoints, quayPoints]
  | append_singleton fixes f ih =>
    unfold quayPoints at ih ⊢
    rw [after_concat, (learn_handover fn f _).1, List.filterMap_append]
    cases hf : f.handover with
    | none =>
      rw [List.filterMap_cons_none (by rw [hf]; rfl), List.filterMap_nil, List.append_nil]
      exact ih
    | some t =>
      rw [List.filterMap_cons_some (by rw [hf]; rfl), List.filterMap_nil, ofPoints_concat]
      exact congrArg (fun q => QuayLine.push q _ _) ih

def radicand (c : Moments K) : K := max (c.trace * c.trace / 4 - (c.xx * c.yy - c.xy * c.xy)) 0

/-- The direction that the fit takes, before it is made one of length one. -/
def direction (c : Moments K) (s : K) : K × K :=
  if 1 / 1000000000 < |c.xy| then c.major s else if c.yy ≤ c.xx then (1, 0) else (0, 1)

theorem fit_ofPoints (l : List (K × K)) : (QuayLine.ofPoints l).fit fn =
    if (l.length : K) < 50 then none
    else if (moments l).top (fn.sqrt (radicand (moments l))) < 400 then none
    else
      let d := direction (moments l) (fn.sqrt (radicand (moments l)))
      let norm := fn.sqrt (d.1 * d.1 + d.2 * d.2)
      if norm < 1 / 1000000000 then none else some (middle l, d.1 / norm, d.2 / norm) := rfl

/-- The centroid of a crane is that of the handovers: their faded mean. -/
structure Remembers (c : CraneWp K) (l : List (ℤ × K × K)) : Prop where
  lastMs : (l.getLast?.map Prod.fst).getD 0 = c.lastMs
  wx : c.wx = weigh Prod.fst (faded (CraneWp.decay fn) l)
  wy : c.wy = weigh Prod.snd (faded (CraneWp.decay fn) l)
  w : c.w = weigh (fun _ => 1) (faded (CraneWp.decay fn) l)

/-- The exponential function, as far as the weights rest on it. -/
structure Exponential (exp : K → K) : Prop where
  zero : exp 0 = 1
  add : ∀ x y, exp (x + y) = exp x * exp y
  pos : ∀ x, 0 < exp x

section

variable {fn} (hexp : Exponential fn.exp)
include hexp

theorem decay_zero : CraneWp.decay fn 0 = 1 := by
  unfold CraneWp.decay
  rw [Int.cast_zero, zero_div, neg_zero, zero_div, hexp.zero]

theorem decay_add (t t' : ℤ) : CraneWp.decay fn (t + t') = CraneWp.decay fn t * CraneWp.decay fn t' := by
  unfold CraneWp.decay
  rw [← hexp.add, Int.cast_add, add_div, neg_add, add_div]

theorem remembers_first (now : ℤ) (p : K × K) : Remembers fn (CraneWp.unseen.push fn p.1 p.2 now) [(now, p)] := by
  have hweigh : ∀ f : K × K → K, weigh f (faded (CraneWp.decay fn) [(now, p)]) = f p := by
    intro f
    show CraneWp.decay fn 0 * f p + 0 = f p
    rw [decay_zero hexp, one_mul, add_zero]
  have hpush : CraneWp.unseen.push fn p.1 p.2 now = ⟨now, 0 + p.1, 0 + p.2, 0 + 1, 0 + 1⟩ := by
    unfold CraneWp.push CraneWp.faded
    rw [if_neg fun h => lt_irrefl _ h.1]
    rfl
  rw [hpush]
  exact ⟨rfl, (zero_add _).trans (hweigh _).symm, (zero_add _).trans (hweigh _).symm, (zero_add _).trans (hweigh fun _ => 1).symm⟩

end

/-! ## The centroids -/

def Fix.placeTouches (f : Fix K) : List (String × Bool) :=
  match f.topos1 with
  | some t =>
    if t = "" then []
    else if isCraneCode t then [(t, false)]
    else if blockPrefix t ≠ t then [(t, true), (blockPrefix t, true)] else [(t, true)]
  | none => []

def Fix.wharfTouches (f : Fix K) : List (String × Bool) :=
  match f.curLoc with
  | some cl => if isWharf cl then [(cl, true)] else []
  | none => []

/-- The places that a fix says something of, and whether the gate is up. -/
def Fix.touches (f : Fix K) : List (String × Bool) := if f.arrived then f.placeTouches ++ f.wharfTouches else []

/-- The fixes of a place, each with whether the gate is up. -/
def samples (k : String) (fixes : List (Fix K)) : List (Bool × K × K) :=
  fixes.flatMap fun f => (f.touches.filter fun t => t.1 = k).map fun t => (t.2, f.lat, f.lon)

def Centroid.sample (c : Centroid K) (s : Bool × K × K) : Centroid K :=
  if s.1 then c.pushGated fn s.2.1 s.2.2 CENTROID_GATE_M else c.push s.2.1 s.2.2

def learnSample (c : Option (Centroid K)) (s : Bool × K × K) : Option (Centroid K) :=
  some ((c.getD Centroid.unseen).sample fn s)

/-- The fix as a sample of the places `ts`. -/
def touch (f : Fix K) (ts : List (String × Bool)) (m : String → Option (Centroid K)) : String → Option (Centroid K) :=
  ts.foldl (fun m t => entry m t.1 .unseen fun c => c.sample fn (t.2, f.lat, f.lon)) m

theorem learnPlace_centroids (f : Fix K) (s : Learned K) :
    (learnPlace fn f s).centroids = touch fn f f.placeTouches s.centroids := by
  unfold learnPlace Fix.placeTouches
  cases f.topos1 with
  | none => rfl
  | some t =>
    dsimp only
    unfold learnTopos learnGated
    split_ifs <;> simp [touch, Centroid.sample]

theorem learnWharf_centroids (f : Fix K) (s : Learned K) :
    (learnWharf fn f s).centroids = touch fn f f.wharfTouches s.centroids := by
  unfold learnWharf Fix.wharfTouches
  cases f.curLoc with
  | none => rfl
  | some cl =>
    dsimp only
    unfold learnGated
    split_ifs <;> simp [touch, Centroid.sample]

theorem learn_centroids (f : Fix K) (s : Learned K) : (learn fn f s).centroids = touch fn f f.touches s.centroids := by
  unfold learn Fix.touches
  split_ifs
  · rw [learnWharf_centroids, learnPlace_centroids]
    exact (List.foldl_append ..).symm
  · rfl

theorem touch_apply (k : String) (f : Fix K) (ts : List (String × Bool)) (m : String → Option (Centroid K)) :
    touch fn f ts m k = ((ts.filter fun t => t.1 = k).map fun t => (t.2, f.lat, f.lon)).foldl (learnSample fn) (m k) := by
  induction ts generalizing m with
  | nil => rfl
  | cons t ts ih =>
    have hcons : touch fn f (t :: ts) m = touch fn f ts (entry m t.1 .unseen fun c => c.sample fn (t.2, f.lat, f.lon)) := rfl
    rw [hcons, ih, List.filter_cons]
    by_cases hk : t.1 = k
    · subst hk
      rw [if_pos (by simp), List.map_cons, List.foldl_cons]
      unfold entry
      rw [Function.update_self]
      rfl
    · rw [if_neg (by simpa using hk)]
      unfold entry
      rw [Function.update_of_ne (Ne.symm hk)]

theorem after_centroids (k : String) (fixes : List (Fix K)) :
    (after fn fixes).centroids k = (samples k fixes).foldl (learnSample fn) none := by
  induction fixes using List.reverseRecOn with
  | nil => rfl
  | append_singleton fixes f ih =>
    have hsamples : samples k (fixes ++ [f]) =
        samples k fixes ++ (f.touches.filter fun t => t.1 = k).map fun t => (t.2, f.lat, f.lon) := by
      unfold samples
      rw [List.flatMap_append, List.flatMap_singleton]
    rw [after_concat, learn_centroids, touch_apply, ih, hsamples, List.foldl_append]

/-- A fix is left out if the gate is up, there are enough others, and it is too far from their mean. -/
def keep (l : List (K × K)) (s : Bool × K × K) : List (K × K) :=
  if s.1 = true ∧ CENTROID_GATE_MIN_N ≤ l.length ∧ CENTROID_GATE_M < distM fn (meanOf l) s.2 then l else l ++ [s.2]

def kept (ss : List (Bool × K × K)) : List (K × K) := ss.foldl (keep fn) []

theorem foldl_learnSample (ss : List (Bool × K × K)) (c : Centroid K) :
    ss.foldl (learnSample fn) (some c) = some (ss.foldl (fun c s => c.sample fn s) c) := by
  induction ss generalizing c with
  | nil => rfl
  | cons s ss ih => exact ih _

theorem foldl_keep_ne_nil (ss : List (Bool × K × K)) {l : List (K × K)} (hl : l ≠ []) : ss.foldl (keep fn) l ≠ [] := by
  induction ss generalizing l with
  | nil => exact hl
  | cons s ss ih =>
    refine ih ?_
    unfold keep
    split_ifs
    · exact hl
    · exact List.append_ne_nil_of_right_ne_nil _ (List.cons_ne_nil _ _)

theorem kept_cons_ne_nil (s : Bool × K × K) (ss : List (Bool × K × K)) : kept fn (s :: ss) ≠ [] := by
  have hfirst : keep fn [] s = [s.2] := if_neg fun hout => absurd hout.2.1 (Nat.not_succ_le_zero 9)
  refine foldl_keep_ne_nil fn ss ?_
  rw [hfirst]
  exact List.cons_ne_nil _ _

variable {fn} [IsStrictOrderedRing K]

theorem Describes.sample {c : Centroid K} {l : List (K × K)} (h : Describes c l) (s : Bool × K × K) :
    Describes (c.sample fn s) (keep fn l s) := by
  have hfar : CENTROID_GATE_MIN_N ≤ c.n ∧ CENTROID_GATE_M < distM fn (c.lat, c.lon) s.2 ↔
      CENTROID_GATE_MIN_N ≤ l.length ∧ CENTROID_GATE_M < distM fn (meanOf l) s.2 := by
    rw [h.mean, h.n]
    refine and_congr_left fun _ => ?_
    unfold CENTROID_GATE_MIN_N CAP
    omega
  unfold Centroid.sample Centroid.pushGated keep
  by_cases hgated : s.1 = true
  · rw [if_pos hgated]
    by_cases hleft : CENTROID_GATE_MIN_N ≤ c.n ∧ CENTROID_GATE_M < distM fn (c.lat, c.lon) s.2
    · rw [if_pos hleft, if_pos ⟨hgated, hfar.mp hleft⟩]
      exact h
    · rw [if_neg hleft, if_neg fun hout => hleft (hfar.mpr hout.2)]
      exact h.push s.2
  · rw [if_neg hgated, if_neg fun hout => hgated hout.1]
    exact h.push s.2

theorem describes_foldl (ss : List (Bool × K × K)) {c : Centroid K} {l : List (K × K)} (h : Describes c l) :
    Describes (ss.foldl (fun c s => c.sample fn s) c) (ss.foldl (keep fn) l) := by
  induction ss generalizing c l with
  | nil => exact h
  | cons s ss ih => exact ih (h.sample s)

variable (fn)

/-- **The centroid of a place.** After every run there is one exactly if a fix of the place has come; it is then the weighted
mean and variance of the fixes that were kept, with equal weights up to five hundred of them and geometric ones beyond. -/
theorem centroid_describes (fixes : List (Fix K)) (k : String) :
    ((after fn fixes).centroids k = none ↔ samples k fixes = []) ∧
      ∀ c, (after fn fixes).centroids k = some c → Describes c (kept fn (samples k fixes)) ∧
        weigh (fun _ => 1) (capped CAP (kept fn (samples k fixes)) : List (K × K × K)) = 1 := by
  rw [after_centroids]
  cases hss : samples k fixes with
  | nil => exact ⟨iff_of_true rfl rfl, fun c hc => absurd hc (Option.some_ne_none c).symm⟩
  | cons s ss =>
    have hdescribes : Describes ((s :: ss).foldl (fun c s => c.sample fn s) Centroid.unseen) (kept fn (s :: ss)) :=
      describes_foldl (s :: ss) describes_unseen
    have hsome : (s :: ss).foldl (learnSample fn) none = some ((s :: ss).foldl (fun c s => c.sample fn s) Centroid.unseen) :=
      foldl_learnSample fn ss _
    rw [hsome]
    refine ⟨iff_of_false (Option.some_ne_none _) (List.cons_ne_nil _ _), fun c hc => ?_⟩
    rw [← Option.some_inj.mp hc]
    exact ⟨hdescribes, weigh_one_capped (by decide) (kept_cons_ne_nil fn s ss)⟩

noncomputable def realFunctions : Functions ℝ := ⟨Real.sqrt, Real.exp, Real.cos, Real.pi⟩

def arrivedAt (topos : String) (lat lon : K) : Fix K := ⟨"TT", lat, lon, some "ARRIVED", some topos, none, 1⟩

theorem centroid_describes_two : ∃ c, (after realFunctions [arrivedAt "01A" 2 0, arrivedAt "01A" 4 0]).centroids "01A" = some c ∧
    c.lat = 3 ∧ c.varLat = 1 := by
  have hsamples : samples "01A" [arrivedAt "01A" (2 : ℝ) 0, arrivedAt "01A" 4 0] = [(true, 2, 0), (true, 4, 0)] := by
    have hplain : blockPrefix "01A" = "01A" := by decide
    have hcrane : isCraneCode "01A" = false := by decide
    simp [samples, arrivedAt, Fix.touches, Fix.arrived, Fix.placeTouches, Fix.wharfTouches, hplain, hcrane]
  have hkept : kept realFunctions [(true, 2, 0), (true, 4, 0)] = [(2, 0), (4, 0)] := by
    simp [kept, keep, CENTROID_GATE_MIN_N]
  obtain ⟨hnone, hsome⟩ := centroid_describes realFunctions [arrivedAt "01A" 2 0, arrivedAt "01A" 4 0] "01A"
  rw [hsamples] at hnone hsome
  obtain ⟨c, hc⟩ := Option.ne_none_iff_exists'.mp (mt hnone.mp (List.cons_ne_nil _ _))
  obtain ⟨hdescribes, -⟩ := hsome c hc
  rw [hkept] at hdescribes
  have hlat : c.lat = 3 := by
    rw [(Prod.mk.inj hdescribes.mean).1]
    norm_num [capped, cappedWeight, weigh, CAP]
  refine ⟨c, hc, hlat, ?_⟩
  rw [hdescribes.varLat, hlat]
  norm_num [capped, cappedWeight, weigh, CAP]

/-! ## The line -/

variable {fn}

theorem root_sqrt (hsqrt : ∀ x, 0 ≤ x → 0 ≤ fn.sqrt x ∧ fn.sqrt x * fn.sqrt x = x) (c : Moments K) :
    c.Root (fn.sqrt (radicand c)) := by
  have heq : c.trace * c.trace / 4 - (c.xx * c.yy - c.xy * c.xy) =
      (c.xx - c.yy) / 2 * ((c.xx - c.yy) / 2) + c.xy * c.xy := by
    unfold Moments.trace
    ring
  have hrad : radicand c = (c.xx - c.yy) / 2 * ((c.xx - c.yy) / 2) + c.xy * c.xy := by
    unfold radicand
    rw [heq]
    exact max_eq_left (add_nonneg (mul_self_nonneg _) (mul_self_nonneg _))
  have hroot := hsqrt (radicand c) (le_max_right _ _)
  exact ⟨hroot.1, hroot.2.trans hrad⟩

theorem straight_div {d : K × K} {r : K} (hr : 0 < r) (hsq : r * r = d.1 * d.1 + d.2 * d.2) :
    Straight (d.1 / r, d.2 / r) := by
  have hne : r * r ≠ 0 := (mul_pos hr hr).ne'
  show d.1 / r * (d.1 / r) + d.2 / r * (d.2 / r) = 1
  rw [div_mul_div_comm, div_mul_div_comm, ← add_div, ← hsq, div_self hne]

theorem direction_norm (hsqrt : ∀ x, 0 ≤ x → 0 ≤ fn.sqrt x ∧ fn.sqrt x * fn.sqrt x = x) (c : Moments K) (s : K) :
    1 / 1000000000 ≤ fn.sqrt ((direction c s).1 * (direction c s).1 + (direction c s).2 * (direction c s).2) := by
  have hsmall : (1 / 1000000000 : K) ≤ 1 := by norm_num
  obtain ⟨hnonneg, hsq⟩ := hsqrt _ (add_nonneg (mul_self_nonneg (direction c s).1) (mul_self_nonneg (direction c s).2))
  refine le_of_not_gt fun hlt => ?_
  have hless := mul_lt_mul'' hlt hlt hnonneg hnonneg
  rw [hsq] at hless
  unfold direction at hless
  split_ifs at hless with hbig hxx
  · have hxy : 1 / 1000000000 * (1 / 1000000000) < c.xy * c.xy := by
      rw [← abs_mul_abs_self c.xy]
      exact mul_lt_mul'' hbig hbig (by positivity) (by positivity)
    have hfirst := mul_self_nonneg (c.major s).1
    have hsecond : (c.major s).2 = c.xy := rfl
    rw [hsecond] at hless
    linarith
  · norm_num at hless
  · norm_num at hless

/-- The direction lacks next to nothing of the greatest variance, and nothing where the covariance counts. -/
theorem along_direction {c : Moments K} {s : K} (h : c.Root s) {r : K} (hr : 0 < r)
    (hsq : r * r = (direction c s).1 * (direction c s).1 + (direction c s).2 * (direction c s).2) :
    c.top s - 1 / 1000000000 ≤ c.along ((direction c s).1 / r, (direction c s).2 / r) := by
  have hne : r * r ≠ 0 := (mul_pos hr hr).ne'
  rw [Moments.along_div, le_div_iff₀ (mul_pos hr hr)]
  unfold direction at hsq ⊢
  split_ifs at hsq ⊢ with hbig hxx
  · rw [h.along_major, ← hsq]
    have hpos := mul_pos hr hr
    nlinarith
  · have hone : r * r = 1 := by rw [hsq]; ring
    have htop := h.top_le
    rw [max_eq_left hxx] at htop
    rw [hone]
    unfold Moments.along
    linarith [not_lt.mp hbig]
  · have hone : r * r = 1 := by rw [hsq]; ring
    have htop := h.top_le
    rw [max_eq_right (not_le.mp hxx).le] at htop
    rw [hone]
    unfold Moments.along
    linarith [not_lt.mp hbig]

theorem exists_along_top (hsqrt : ∀ x, 0 ≤ x → 0 ≤ fn.sqrt x ∧ fn.sqrt x * fn.sqrt x = x) {c : Moments K} {s : K}
    (h : c.Root s) : ∃ e, Straight e ∧ c.along e = c.top s := by
  by_cases hxy : c.xy = 0
  · have htop := h.top_le
    rw [hxy, abs_zero, add_zero] at htop
    rcases le_total c.yy c.xx with hle | hle
    · refine ⟨(1, 0), by unfold Straight; ring, le_antisymm (h.along_le_top (by unfold Straight; ring)) ?_⟩
      rw [max_eq_left hle] at htop
      unfold Moments.along
      linarith
    · refine ⟨(0, 1), by unfold Straight; ring, le_antisymm (h.along_le_top (by unfold Straight; ring)) ?_⟩
      rw [max_eq_right hle] at htop
      unfold Moments.along
      linarith
  · have hsum : 0 < (c.major s).1 * (c.major s).1 + (c.major s).2 * (c.major s).2 :=
      add_pos_of_nonneg_of_pos (mul_self_nonneg _) (mul_self_pos.mpr hxy)
    obtain ⟨hnonneg, hsq⟩ := hsqrt _ hsum.le
    have hpos : 0 < fn.sqrt ((c.major s).1 * (c.major s).1 + (c.major s).2 * (c.major s).2) :=
      hnonneg.lt_of_ne fun hzero => by rw [← hzero, mul_zero] at hsq; exact hsum.ne hsq
    refine ⟨_, straight_div hpos hsq, ?_⟩
    rw [Moments.along_div, h.along_major, hsq, mul_div_cancel_right₀ _ hsum.ne']

/-- There is a line exactly if there are points enough and they stretch out in some direction; it goes through their
middle, and its direction lacks next to nothing of the greatest variance. -/
theorem fit_spec (hsqrt : ∀ x, 0 ≤ x → 0 ≤ fn.sqrt x ∧ fn.sqrt x * fn.sqrt x = x) (l : List (K × K)) :
    ((QuayLine.ofPoints l).fit fn = none ↔
        l.length < 50 ∨ ∀ e, Straight e → avg (fun p => far (middle l) e p ^ 2) l < 400) ∧
      ∀ m d, (QuayLine.ofPoints l).fit fn = some (m, d) → l ≠ [] ∧ m = middle l ∧ Straight d ∧
        (moments l).top (fn.sqrt (radicand (moments l))) - 1 / 1000000000 ≤ (moments l).along d := by
  have hroot := root_sqrt hsqrt (moments l)
  have hshort : (l.length : K) < 50 ↔ l.length < 50 := Nat.cast_lt_ofNat
  rw [fit_ofPoints]
  generalize fn.sqrt (radicand (moments l)) = s at hroot ⊢
  by_cases hn : l.length < 50
  · rw [if_pos (hshort.mpr hn)]
    exact ⟨iff_of_true rfl (Or.inl hn), fun m d h => absurd h (Option.some_ne_none _).symm⟩
  · rw [if_neg (mt hshort.mp hn)]
    have hl : l ≠ [] := fun hnil => hn (by simp [hnil])
    have hspread : (moments l).top s < 400 ↔ ∀ e, Straight e → avg (fun p => far (middle l) e p ^ 2) l < 400 := by
      constructor
      · intro htop e he
        rw [← along_eq hl]
        exact (hroot.along_le_top he).trans_lt htop
      · intro hall
        obtain ⟨e, he, htop⟩ := exists_along_top hsqrt hroot
        rw [← htop, along_eq hl]
        exact hall e he
    by_cases htop : (moments l).top s < 400
    · rw [if_pos htop]
      exact ⟨iff_of_true rfl (Or.inr (hspread.mp htop)), fun m d h => absurd h (Option.some_ne_none _).symm⟩
    · have hnorm := direction_norm hsqrt (moments l) s
      have halong := fun r hr hsq => along_direction hroot (r := r) hr hsq
      rw [if_neg htop]
      dsimp only
      generalize direction (moments l) s = d at hnorm halong ⊢
      have hpos : 0 < fn.sqrt (d.1 * d.1 + d.2 * d.2) := lt_of_lt_of_le (by positivity) hnorm
      have hsq := (hsqrt _ (add_nonneg (mul_self_nonneg d.1) (mul_self_nonneg d.2))).2
      rw [if_neg (not_lt.mpr hnorm)]
      refine ⟨iff_of_false (Option.some_ne_none _) fun hor => htop (hspread.mpr (hor.resolve_left hn)), fun m d' h => ?_⟩
      obtain ⟨rfl, rfl⟩ := Prod.mk.inj (Option.some_inj.mp h)
      exact ⟨hl, rfl, straight_div hpos hsq, halong _ hpos hsq⟩

theorem project_nearest {q : QuayLine K} {m d : K × K} (hfit : q.fit fn = some (m, d)) (hd : Straight d) (x y t : K) :
    (x - (q.project fn x y).1) ^ 2 + (y - (q.project fn x y).2) ^ 2 ≤
      (x - (m.1 + t * d.1)) ^ 2 + (y - (m.2 + t * d.2)) ^ 2 := by
  have hproject : q.project fn x y = (m.1 + ((x - m.1) * d.1 + (y - m.2) * d.2) * d.1,
      m.2 + ((x - m.1) * d.1 + (y - m.2) * d.2) * d.2) := by
    unfold QuayLine.project
    rw [hfit]
  have hone : d.1 * d.1 + d.2 * d.2 = 1 := hd
  rw [hproject]
  generalize hs : (x - m.1) * d.1 + (y - m.2) * d.2 = s
  have hapart : (x - (m.1 + t * d.1)) ^ 2 + (y - (m.2 + t * d.2)) ^ 2 =
      (x - (m.1 + s * d.1)) ^ 2 + (y - (m.2 + s * d.2)) ^ 2 + (t - s) ^ 2 := by
    linear_combination (t ^ 2 - s ^ 2) * hone + 2 * (s - t) * hs
  rw [hapart]
  exact le_add_of_nonneg_right (sq_nonneg _)

/-- **The line of the quay.** After every run there is one exactly if fifty handovers have come and they vary by the square of
twenty metres in some direction. No other line has less of a mean square distance from them, by more than a billionth of a
square metre, and what is projected goes to the nearest point of it. -/
theorem quay_line_best (hsqrt : ∀ x, 0 ≤ x → 0 ≤ fn.sqrt x ∧ fn.sqrt x * fn.sqrt x = x) (fixes : List (Fix K)) :
    let l := quayPoints fn fixes
    let q := (after fn fixes).quayLine
    (q.fit fn = none ↔ l.length < 50 ∨ ∀ e, Straight e → avg (fun p => far (middle l) e p ^ 2) l < 400) ∧
      ∀ m d, q.fit fn = some (m, d) → Straight d ∧
        (∀ m' e, Straight e → avg (fun p => off m d p ^ 2) l ≤ avg (fun p => off m' e p ^ 2) l + 1 / 1000000000) ∧
        ∀ x y t, (x - (q.project fn x y).1) ^ 2 + (y - (q.project fn x y).2) ^ 2 ≤
          (x - (m.1 + t * d.1)) ^ 2 + (y - (m.2 + t * d.2)) ^ 2 := by
  intro l q
  have hq : q = QuayLine.ofPoints l := after_quayLine fn fixes
  obtain ⟨hnone, hsome⟩ := fit_spec hsqrt l
  rw [← hq] at hnone hsome
  refine ⟨hnone, fun m d hfit => ?_⟩
  obtain ⟨hl, rfl, hd, halong⟩ := hsome m d hfit
  exact ⟨hd, fun m' e he => off_le_of_along hl (root_sqrt hsqrt _) hd halong he m', project_nearest hfit hd⟩

/-- Half of the handovers are a thousandth of a degree north of the others. -/
theorem quay_line_best_north : ∃ m d,
    (after realFunctions (List.replicate 25 (arrivedAt "C46" REF_LAT REF_LON) ++
      List.replicate 25 (arrivedAt "C46" (REF_LAT + 1 / 1000) REF_LON))).quayLine.fit realFunctions = some (m, d) ∧
    Straight d := by
  have hcrane : isCraneCode "C46" = true := by decide
  have hpoints : quayPoints realFunctions (List.replicate 25 (arrivedAt "C46" REF_LAT REF_LON) ++
      List.replicate 25 (arrivedAt "C46" (REF_LAT + 1 / 1000) REF_LON)) =
        List.replicate 25 (0, 0) ++ List.replicate 25 (0, 11132 / 100) := by
    simp [quayPoints, arrivedAt, Fix.handover, Fix.arrived, hcrane, toLocal, METRES]
    norm_num
  have hsqrt : ∀ x, 0 ≤ x → 0 ≤ realFunctions.sqrt x ∧ realFunctions.sqrt x * realFunctions.sqrt x = x :=
    fun x hx => ⟨Real.sqrt_nonneg x, Real.mul_self_sqrt hx⟩
  obtain ⟨hnone, hsome⟩ := quay_line_best hsqrt (List.replicate 25 (arrivedAt "C46" REF_LAT REF_LON) ++
      List.replicate 25 (arrivedAt "C46" (REF_LAT + 1 / 1000) REF_LON))
  rw [hpoints] at hnone
  have hsquare : ¬ (avg (fun p => far (middle (List.replicate 25 (0, 0) ++ List.replicate 25 (0, 11132 / 100))) (0, 1) p ^ 2)
      (List.replicate 25 ((0 : ℝ), (0 : ℝ)) ++ List.replicate 25 (0, 11132 / 100)) < 400) := by
    norm_num [avg, far, middle]
  have hline : (after realFunctions (List.replicate 25 (arrivedAt "C46" REF_LAT REF_LON) ++
      List.replicate 25 (arrivedAt "C46" (REF_LAT + 1 / 1000) REF_LON))).quayLine.fit realFunctions ≠ none :=
    mt hnone.mp (not_or.mpr ⟨by simp, fun hall => hsquare (hall (0, 1) (by norm_num [Straight]))⟩)
  obtain ⟨⟨m, d⟩, hfit⟩ := Option.ne_none_iff_exists'.mp hline
  exact ⟨m, d, hfit, (hsome m d hfit).1⟩

/-! ## The work points -/

section Exp

variable (hexp : Exponential fn.exp)
include hexp

theorem one_le_total {l : List (ℤ × K × K)} (hl : l ≠ []) : 1 ≤ weigh (fun _ => 1) (faded (CraneWp.decay fn) l) :=
  one_le_weigh_faded (decay_zero hexp) (fun _ => hexp.pos _) hl

theorem Remembers.push {c : CraneWp K} {l : List (ℤ × K × K)} {q : ℤ × K × K} (h : Remembers fn c (l ++ [q]))
    (hq : 0 < q.1) (now : ℤ) (p : K × K) : Remembers fn (c.push fn p.1 p.2 now) (l ++ [q, (now, p)]) := by
  have hlast : c.lastMs = q.1 := by
    rw [← h.lastMs, List.getLast?_append]
    rfl
  have hw : 0 < c.w := by
    rw [h.w]
    exact zero_lt_one.trans_le (one_le_total hexp (List.append_ne_nil_of_right_ne_nil _ (List.cons_ne_nil _ _)))
  have hweigh : ∀ f : K × K → K, weigh f (faded (CraneWp.decay fn) (l ++ [q, (now, p)])) =
      weigh f (faded (CraneWp.decay fn) (l ++ [q])) * CraneWp.decay fn (max (now - c.lastMs) 0) + f p := by
    intro f
    rw [faded_concat (decay_zero hexp) (decay_add hexp), weigh_append, weigh_scale, weigh_cons, weigh_nil, hlast]
    ring
  have hpush : c.push fn p.1 p.2 now = ⟨now, c.wx * CraneWp.decay fn (max (now - c.lastMs) 0) + p.1,
      c.wy * CraneWp.decay fn (max (now - c.lastMs) 0) + p.2, c.w * CraneWp.decay fn (max (now - c.lastMs) 0) + 1,
      c.obs + 1⟩ := by
    unfold CraneWp.push CraneWp.faded
    rw [if_pos ⟨hw, hlast ▸ hq⟩]
  rw [hpush]
  refine ⟨?_, ?_, ?_, ?_⟩
  · rw [List.getLast?_append]
    rfl
  · rw [hweigh, ← h.wx]
  · rw [hweigh, ← h.wy]
  · rw [hweigh, ← h.w]

theorem after_craneWp (id : String) {fixes : List (Fix K)} (hclock : ∀ f ∈ fixes, 0 < f.now) :
    (handovers fn id fixes = [] ∧ (after fn fixes).craneWp id = none) ∨
      ∃ c, handovers fn id fixes ≠ [] ∧ (after fn fixes).craneWp id = some c ∧ Remembers fn c (handovers fn id fixes) := by
  induction fixes using List.reverseRecOn with
  | nil => exact Or.inl ⟨rfl, rfl⟩
  | append_singleton fixes f ih =>
    have hbefore := ih fun f hf => hclock f (List.mem_append_left _ hf)
    rw [after_concat, (learn_handover fn f _).2]
    by_cases hid : f.handover = some id
    · have hconcat : handovers fn id (fixes ++ [f]) = handovers fn id fixes ++ [(f.now, toLocal fn f.lat f.lon)] := by
        unfold handovers
        rw [List.filterMap_append, List.filterMap_cons_some (by rw [hid]; simp [Option.filter]; rfl), List.filterMap_nil]
      rw [hconcat, hid]
      refine Or.inr ⟨_, List.append_ne_nil_of_right_ne_nil _ (List.cons_ne_nil _ _), Function.update_self .., ?_⟩
      rcases hbefore with ⟨hnil, hnone⟩ | ⟨c, hne, hsome, hc⟩
      · rw [hnil, hnone]
        exact remembers_first hexp f.now _
      · rw [hsome]
        obtain ⟨l, q, hlq⟩ := (handovers fn id fixes).eq_nil_or_concat.resolve_left hne
        rw [List.concat_eq_append] at hlq
        have hq : 0 < q.1 := by
          have hmem : q ∈ handovers fn id fixes := by
            rw [hlq]
            exact List.mem_append_right _ List.mem_cons_self
          obtain ⟨f', hf', hsome'⟩ := List.mem_filterMap.mp hmem
          obtain ⟨-, -, rfl⟩ := Option.map_eq_some_iff.mp hsome'
          exact hclock f' (List.mem_append_left _ hf')
        rw [hlq] at hc ⊢
        rw [List.append_assoc]
        exact hc.push hexp hq f.now _
    · have hsame : handovers fn id (fixes ++ [f]) = handovers fn id fixes := by
        unfold handovers
        rw [List.filterMap_append, List.filterMap_cons_none (by
          cases hf : f.handover with
          | none => rfl
          | some t =>
            have ht : t ≠ id := fun heq => hid (by rw [hf, heq])
            simp [Option.filter, ht]), List.filterMap_nil, List.append_nil]
      rw [hsame]
      cases hf : f.handover with
      | none => exact hbefore
      | some t =>
        have ht : id ≠ t := fun heq => hid (by rw [hf, heq])
        have hkeep : entry (after fn fixes).craneWp t .unseen
            (fun c => c.push fn (toLocal fn f.lat f.lon).1 (toLocal fn f.lat f.lon).2 f.now) id =
              (after fn fixes).craneWp id := Function.update_of_ne ht ..
        dsimp only
        rw [hkeep]
        exact hbefore

end Exp

variable (fn)

/-- The mean of handovers, with the weight of each faded by the time since. -/
def fadedMean (l : List (ℤ × K × K)) : K × K :=
  (weigh Prod.fst (faded (CraneWp.decay fn) l) / weigh (fun _ => 1) (faded (CraneWp.decay fn) l),
    weigh Prod.snd (faded (CraneWp.decay fn) l) / weigh (fun _ => 1) (faded (CraneWp.decay fn) l))

def onLine (line : QuayLine K) (p : K × K) : K × K :=
  fromLocal fn (line.project fn p.1 p.2).1 (line.project fn p.1 p.2).2

variable {fn}

/-- **The work point of a crane.** After every run it is that of the faded mean of its handovers, brought onto the line of the
quay, as soon as there has been one and however long ago the last one was; before the first one it is that of its own position. -/
theorem crane_work_point (hexp : Exponential fn.exp) {fixes : List (Fix K)} (hclock : ∀ f ∈ fixes, 0 < f.now)
    (live : String → Option (K × K)) (id : String) :
    resolveCraneWp fn (after fn fixes).quayLine (after fn fixes).craneWp live id =
      if handovers fn id fixes = [] then
        (live id).map fun l => onLine fn (QuayLine.ofPoints (quayPoints fn fixes)) (toLocal fn l.1 l.2)
      else some (onLine fn (QuayLine.ofPoints (quayPoints fn fixes)) (fadedMean fn (handovers fn id fixes))) := by
  unfold resolveCraneWp
  rw [after_quayLine]
  rcases after_craneWp hexp id hclock with ⟨hnil, hnone⟩ | ⟨c, hne, hsome, hc⟩
  · rw [hnone, if_pos hnil]
    rfl
  · have htotal := one_le_total hexp hne
    have hcentroid : c.centroid = some (fadedMean fn (handovers fn id fixes)) := by
      unfold CraneWp.centroid fadedMean
      rw [if_pos (by rw [hc.w]; exact lt_of_lt_of_le (by norm_num) htotal), hc.wx, hc.wy, hc.w]
    rw [hsome, if_neg hne, Option.bind_some, hcentroid]
    rfl

/-- Two handovers of a crane, a quarter of an hour from each other. -/
noncomputable def quarterApart : List (Fix ℝ) := [arrivedAt "C46" 3 101, { arrivedAt "C46" 5 101 with now := 900001 }]

/-- The first one has faded to the weight `exp (-1)`. -/
theorem crane_work_point_quarter :
    resolveCraneWp realFunctions (after realFunctions quarterApart).quayLine (after realFunctions quarterApart).craneWp
      (fun _ => some (0, 0)) "C46" =
        some (onLine realFunctions (QuayLine.ofPoints (quayPoints realFunctions quarterApart))
          ((Real.exp (-1) * (toLocal realFunctions 3 101).1 + (toLocal realFunctions 5 101).1) / (Real.exp (-1) + 1),
            (Real.exp (-1) * (toLocal realFunctions 3 101).2 + (toLocal realFunctions 5 101).2) / (Real.exp (-1) + 1))) := by
  have hcrane : isCraneCode "C46" = true := by decide
  have htwo : handovers realFunctions "C46" quarterApart =
      [(1, toLocal realFunctions 3 101), (900001, toLocal realFunctions 5 101)] := by
    simp [handovers, quarterApart, arrivedAt, Fix.handover, Fix.arrived, hcrane]
  have hexp : Exponential realFunctions.exp := ⟨Real.exp_zero, Real.exp_add, Real.exp_pos⟩
  have hdecay : CraneWp.decay realFunctions 900000 = Real.exp (-1) := by
    norm_num [CraneWp.decay, realFunctions, CRANE_WP_TAU_S]
  have hnone : CraneWp.decay realFunctions 0 = 1 := by
    norm_num [CraneWp.decay, realFunctions]
  have hclock : ∀ f ∈ quarterApart, 0 < f.now := by simp [quarterApart, arrivedAt]
  rw [crane_work_point hexp hclock, htwo, if_neg (List.cons_ne_nil _ _)]
  simp [fadedMean, faded, elapsed, hdecay, hnone]

end TtAiops.Dispatch.WorkPoints
