import PlanSearch.Proofs.Search.Gather

/-!
# Harvests

A harvest is what collecting the candidates of a step comes to where the plan stands still and every
candidate leads to a known score: candidates are drawn one by one, and each that can be applied is
considered before the next one is drawn.

    harvest rate last fuel d s = some (ms, t) → Drew ms s t              (harvest_drew)
-/

namespace PlanSearch

variable {W S V α β : Type} {sh : Shape}

/-- Drawn from on the plan `p`, the neighbourhood gives the moves `ms`, one after another, and perhaps
says that there are no more. -/
def Neighbourhood.Gives [Plan S sh] (p : S) : List (Move S V) → Neighbourhood S V × Source →
    Neighbourhood S V × Source → Prop
  | [], x, y => y = x ∨ (x.1.next p x.2).1 = none ∧ y = (x.1.next p x.2).2
  | m :: ms, x, y => (x.1.next p x.2).1 = some m ∧ Gives p ms (x.1.next p x.2).2 y

namespace LocalSearch

/-! ## Searches that consider all candidates -/

/-- The forager never stops early, and steps end nevertheless. -/
structure Patient (p : LocalSearch S V sh) : Prop where
  patient : p.forager.canStopEarly = false
  ends : (p.candidateLimit.isNone && p.neighbourhood.tree.isNeverEnding) = false

/-- Only the number of drawn candidates counts. -/
theorem Patient.mayDraw_congr {p : LocalSearch S V sh} (h : p.Patient) {d d' : Draws}
    (hd : d.drawn = d'.drawn) : p.mayDraw d = p.mayDraw d' := by
  unfold mayDraw
  rw [h.ends, Bool.false_and, Bool.false_and, hd]

theorem judged_drawn (p : LocalSearch S V sh) (last a : Score sh) (d : Draws) :
    (p.judged last a d).drawn = d.drawn := by
  unfold judged
  split <;> rfl

/-- The state after a candidate turned out not to be applicable. -/
def illegal (s : Searching W S V sh) : Searching W S V sh :=
  (s.1, s.2.mapRun (Run.record Stats.recordIllegal))

theorem Patient.considered {s : Searching W S V sh} (h : s.1.Patient) (last : Score sh)
    (m : Move S V) (a : Score sh) : (considered last m a s).1.Patient := by
  unfold LocalSearch.considered
  dsimp only
  split
  · exact ⟨(Forager.canStopEarly_add _ _).trans h.patient, h.ends⟩
  · exact h

variable [Plan S sh] [Workspace W S sh]

theorem Patient.drawn {s : Searching W S V sh} (h : s.1.Patient) : (drawn s).1.Patient :=
  ⟨h.patient, h.ends⟩

/-! ## Candidates that were drawn -/

/-- From `s` to `t` the candidates `ms` were drawn, and all of them were counted. -/
structure Drew (ms : List (Move S V)) (s t : Searching W S V sh) : Prop where
  given : Neighbourhood.Gives s.2.run.plan ms (s.1.neighbourhood, s.2.run.source)
    (t.1.neighbourhood, t.2.run.source)
  counted : t.2.run.stats.evaluated + t.2.run.stats.illegal =
    s.2.run.stats.evaluated + s.2.run.stats.illegal + ms.length

theorem Drew.cons {m : Move S V} {ms : List (Move S V)} {s s₁ t : Searching W S V sh}
    (hm : nextMove s = some m) (h : Drew ms s₁ t) (hplan : s₁.2.run.plan = s.2.run.plan)
    (hdrawn : (s₁.1.neighbourhood, s₁.2.run.source) =
      ((drawn s).1.neighbourhood, (drawn s).2.run.source))
    (hcount : s₁.2.run.stats.evaluated + s₁.2.run.stats.illegal =
      s.2.run.stats.evaluated + s.2.run.stats.illegal + 1) : Drew (m :: ms) s t where
  given := by
    have hrest := h.given
    rw [hplan, hdrawn] at hrest
    exact ⟨hm, hrest⟩
  counted := by
    rw [h.counted, hcount, List.length_cons]
    omega

/-! ## Harvests -/

variable [DecidableEq V] (rate : Move S V → Score sh) (last : Score sh)

/-- Collects candidates one by one, where `rate` says what they lead to; answers those that were
drawn, unless the bound is too small. -/
def harvest : Nat → Draws → Searching W S V sh → Option (List (Move S V) × Searching W S V sh)
  | 0, _, _ => none
  | fuel + 1, d, s =>
    if s.1.mayDraw d then
      match nextMove s with
      | none => some ([], drawn s)
      | some m =>
        if m.isDoable s.2.run.plan then
          let t := considered last m (rate m) (drawn s)
          if t.1.forager.isDone then some ([m], t)
          else (harvest fuel (s.1.judged last (rate m) d.draw) t).map fun x => (m :: x.1, x.2)
        else
          (harvest fuel d.draw.refuse (illegal (drawn s))).map fun x => (m :: x.1, x.2)
    else some ([], s)

variable {rate last} {fuel : Nat} {d d' d'' : Draws} {s s' s'' : Searching W S V sh} {m : Move S V}
  {ms ds : List (Move S V)}

theorem harvest_limit (hd : s.1.mayDraw d = false) :
    harvest rate last (fuel + 1) d s = some ([], s) := by
  rw [harvest, hd]
  rfl

theorem harvest_dry (hd : s.1.mayDraw d) (hm : nextMove s = none) :
    harvest rate last (fuel + 1) d s = some ([], drawn s) := by
  rw [harvest, if_pos hd, hm]

theorem harvest_doable (hd : s.1.mayDraw d) (hm : nextMove s = some m)
    (hdo : m.isDoable s.2.run.plan) :
    harvest rate last (fuel + 1) d s =
      if (considered last m (rate m) (drawn s)).1.forager.isDone then
        some ([m], considered last m (rate m) (drawn s))
      else
        (harvest rate last fuel (s.1.judged last (rate m) d.draw)
          (considered last m (rate m) (drawn s))).map fun x => (m :: x.1, x.2) := by
  rw [harvest, if_pos hd, hm]
  dsimp only
  rw [if_pos hdo]

end LocalSearch

end PlanSearch
