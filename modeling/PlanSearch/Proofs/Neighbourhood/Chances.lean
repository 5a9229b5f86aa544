import Mathlib.Logic.Function.Iterate
import PlanSearch.Proofs.Move.Slot
import PlanSearch.Proofs.Neighbourhood.Stock
import PlanSearch.Proofs.Random.Source

/-!
# The chances of a random change

A random walk over changes draws an entity, and draws once more where the entity has no values, up
to as many times as there are entities. An entity may well be drawn twice, and another one not at
all: the walk yields a move unless all its draws fall on entities without values. So it never ends
if all movable entities have values; if one has none, there are sources for which it ends at once,
no matter what the other entities have to offer.

    yields a move ↔ an entity with values is among those drawn           (ChangeWalk.Current.next)
    all movable entities have values → never ends                        (next_random)
    a movable entity has none → ends for some source                     (exists_dry)
-/

namespace PlanSearch

variable {S V : Type} {sh : Shape} [Plan S sh]

/-! ## Drawing entities -/

namespace Plan

/-- One of the movable entities, if there are any. -/
def draw (plan : S) (family : Nat) (s : Source) : Option Nat × Source :=
  match movable plan family with
  | [] => (none, s)
  | e :: es =>
    let (i, s) := s.below (e :: es).length
    ((e :: es)[i]?, s)

/-- The entity of the draw with the number `k`, where nothing but entities is drawn. -/
def drawn (plan : S) (family : Nat) : Nat → Source → Option Nat
  | 0, s => (draw plan family s).1
  | k + 1, s => drawn plan family k (draw plan family s).2

variable {plan : S} {family : Nat} {e : Nat}

theorem draw_of_nil (h : movable plan family = []) (s : Source) :
    draw plan family s = (none, s) := by
  unfold draw
  rw [h]

theorem draw_of_ne (h : movable plan family ≠ []) (s : Source) :
    draw plan family s = ((movable plan family)[(s.below (movable plan family).length).1]?,
      (s.below (movable plan family).length).2) := by
  unfold draw
  split
  · next hnil => exact absurd hnil h
  · next hcons => rw [hcons]

theorem exists_draw (h : movable plan family ≠ []) (s : Source) :
    ∃ e ∈ movable plan family, (draw plan family s).1 = some e := by
  rw [draw_of_ne h]
  have hlt := s.below_lt (List.length_pos_iff.2 h)
  exact ⟨_, List.getElem_mem hlt, List.getElem?_eq_getElem hlt⟩

theorem exists_drawn (h : movable plan family ≠ []) (k : Nat) (s : Source) :
    ∃ e ∈ movable plan family, drawn plan family k s = some e := by
  induction k generalizing s with
  | zero => exact exists_draw h s
  | succ k ih => exact ih _

end Plan

/-! ## Walks over the plan -/

namespace EntityWalk

variable {plan : S} {family : Nat} {w : EntityWalk}

/-- Unless they are to be listed anew, the candidates are the movable entities. -/
def Current (plan : S) (family : Nat) (w : EntityWalk) : Prop :=
  w.stale = false → w.candidates = Plan.movable plan family

theorem Current.prepare (h : w.Current plan family) (s : Source) :
    ∃ v : EntityWalk, w.prepare plan family .random s = (v, s) ∧
      v.candidates = Plan.movable plan family := by
  unfold EntityWalk.prepare
  cases hstale : w.stale with
  | true => exact ⟨_, rfl, rfl⟩
  | false => exact ⟨w, rfl, h hstale⟩

theorem Current.next (h : w.Current plan family) (s : Source) :
    ∃ v : EntityWalk, v.Current plan family ∧ w.next plan family .random s =
      ((Plan.draw plan family s).1, v, (Plan.draw plan family s).2) := by
  obtain ⟨v, hv, hcandidates⟩ := h.prepare s
  refine ⟨v, fun _ => hcandidates, ?_⟩
  unfold EntityWalk.next Plan.draw
  rw [hv]
  dsimp only
  rw [hcandidates]
  cases Plan.movable plan family <;> rfl

end EntityWalk

namespace ValueWalk

variable {plan : S} {d : Definition S V} {w : ValueWalk V}

/-- The values at hand are those of each entity that they pass for. -/
def Current (plan : S) (d : Definition S V) (w : ValueWalk V) : Prop :=
  ∀ e, w.isOutdated d e = false → w.all = d.choices plan e

omit [Plan S sh] in
theorem current_of_stale (h : w.stale = true) : w.Current plan d := fun e he => by
  rw [isOutdated, h] at he
  cases he

omit [Plan S sh] in
/-- Values that were just listed pass for those of another entity only where there are no values of
single entities. -/
theorem current_listed (e : Nat) (w : ValueWalk V) :
    Current plan d { w with all := d.choices plan e, entity := some e, stale := false } := by
  intro e' he'
  cases hrange : d.range.isPerEntity with
  | false => exact d.choices_eq hrange plan e e'
  | true =>
    have hsame : e = e' := by simpa [isOutdated, hrange] using he'
    rw [hsame]

omit [Plan S sh] in
theorem Current.start (h : w.Current plan d) (e : Nat) (s : Source) :
    ∃ v : ValueWalk V, v.Current plan d ∧ v.all = d.choices plan e ∧
      (if w.isOutdated d e then w.start plan d .random e s else (w, s)) = (v, s) := by
  cases hw : w.isOutdated d e with
  | false => exact ⟨w, h, h e hw, rfl⟩
  | true =>
    let listed : ValueWalk V := { w with upcoming := d.choices plan e }
    refine ⟨{ listed with all := d.choices plan e, entity := some e, stale := false },
      current_listed e listed, rfl, ?_⟩
    unfold ValueWalk.start
    rw [hw]
    rfl

omit [Plan S sh] in
/-- A value is drawn from those of the entity, if there are any. -/
theorem Current.next (h : w.Current plan d) (e : Nat) (s : Source) :
    (w.next plan d .random e s).2.1.Current plan d ∧
      (d.choices plan e = [] → (w.next plan d .random e s).1 = none ∧
        (w.next plan d .random e s).2.2 = s) ∧
      (d.choices plan e ≠ [] → ∃ v ∈ d.choices plan e, (w.next plan d .random e s).1 = some v) := by
  obtain ⟨v, hv, hall, hstart⟩ := h.start e s
  unfold ValueWalk.next
  rw [hstart]
  dsimp only
  rw [if_pos (show Order.random.isRandom = true from rfl), hall]
  by_cases hnil : d.choices plan e = []
  · rw [hnil]
    exact ⟨hv, fun _ => ⟨rfl, rfl⟩, fun hne => absurd rfl hne⟩
  · rw [if_neg (by rwa [List.isEmpty_iff])]
    refine ⟨hv, fun hnil' => absurd hnil' hnil, fun _ => ?_⟩
    have hlt := s.below_lt (List.length_pos_iff.2 hnil)
    exact ⟨_, List.getElem_mem hlt, List.getElem?_eq_getElem hlt⟩

end ValueWalk

namespace ChangeWalk

variable {plan : S} {d : Definition S V} {w : ChangeWalk V}

/-- What the walk remembers was listed on the plan. -/
structure Current (plan : S) (d : Definition S V) (w : ChangeWalk V) : Prop where
  entities : w.entities.Current plan d.cell.family
  values : w.values.Current plan d

theorem current_restart (plan : S) (d : Definition S V) (w : ChangeWalk V) :
    w.restart.Current plan d :=
  ⟨nofun, ValueWalk.current_of_stale rfl⟩

/-- The first `k` draws fall on entities without values. -/
def Dry (plan : S) (d : Definition S V) (k : Nat) (s : Source) : Prop :=
  ∀ j < k, ∀ e, Plan.drawn plan d.cell.family j s = some e → d.choices plan e = []

/-- The move assigns one of its values to the first entity drawn that has values. -/
inductive Hits (plan : S) (d : Definition S V) (attempts : Nat) (s : Source) : Move S V → Prop
  | mk {k e : Nat} {v : Option V} (hk : k < attempts) (hdry : Dry plan d k s)
      (hdrawn : Plan.drawn plan d.cell.family k s = some e) (hv : v ∈ d.choices plan e) :
      Hits plan d attempts s (.leaf (.change d.cell e v))

theorem dry_zero (plan : S) (d : Definition S V) (s : Source) : Dry plan d 0 s := nofun

theorem dry_succ_iff {k : Nat} {s : Source} : Dry plan d (k + 1) s ↔
    (∀ e, (Plan.draw plan d.cell.family s).1 = some e → d.choices plan e = []) ∧
      Dry plan d k (Plan.draw plan d.cell.family s).2 := by
  constructor
  · intro h
    exact ⟨h 0 (Nat.succ_pos k), fun j hj => h (j + 1) (Nat.succ_lt_succ hj)⟩
  · rintro ⟨hfirst, hrest⟩ j hj
    cases j with
    | zero => exact hfirst
    | succ j => exact hrest j (Nat.lt_of_succ_lt_succ hj)

theorem dry_of_nil (h : Plan.movable plan d.cell.family = []) (k : Nat) (s : Source) :
    Dry plan d k s := by
  induction k generalizing s with
  | zero => exact dry_zero plan d s
  | succ k ih =>
    refine dry_succ_iff.2 ⟨fun e he => ?_, ih _⟩
    rw [Plan.draw_of_nil h] at he
    cases he

/-- A draw that falls on an entity without values is made up for by another one. -/
theorem Hits.later {attempts e : Nat} {s : Source} {m : Move S V}
    (he : (Plan.draw plan d.cell.family s).1 = some e) (hnil : d.choices plan e = [])
    (h : Hits plan d attempts (Plan.draw plan d.cell.family s).2 m) :
    Hits plan d (attempts + 1) s m := by
  obtain ⟨hk, hdry, hdrawn, hv⟩ := h
  refine .mk (Nat.succ_lt_succ hk) (dry_succ_iff.2 ⟨fun e' he' => ?_, hdry⟩) hdrawn hv
  rw [he] at he'
  rwa [← Option.some.inj he']

/-- The induction is on the attempts that are left. -/
theorem Current.nextRandom (attempts : Nat) (h : w.Current plan d) (s : Source) :
    (w.nextRandom plan d attempts s).2.1.Current plan d ∧
      ((w.nextRandom plan d attempts s).1 = none ↔ Dry plan d attempts s) ∧
      ∀ m, (w.nextRandom plan d attempts s).1 = some m → Hits plan d attempts s m := by
  induction attempts generalizing w s with
  | zero => exact ⟨h, iff_of_true rfl (dry_zero plan d s), fun m hm => by cases hm⟩
  | succ attempts ih =>
    obtain ⟨entities, hentities, hnext⟩ := h.entities.next s
    unfold ChangeWalk.nextRandom
    rw [hnext]
    cases hdraw : (Plan.draw plan d.cell.family s).1 with
    | none =>
      have hmovable : Plan.movable plan d.cell.family = [] := by
        by_contra hne
        obtain ⟨e, -, he⟩ := Plan.exists_draw hne s
        rw [hdraw] at he
        cases he
      exact ⟨⟨hentities, h.values⟩, iff_of_true rfl (dry_of_nil hmovable _ s),
        fun m hm => by cases hm⟩
    | some e =>
      dsimp only
      obtain ⟨hvalues, hempty, hsome⟩ := h.values.next e (Plan.draw plan d.cell.family s).2
      generalize w.values.next plan d .random e (Plan.draw plan d.cell.family s).2 = x at *
      obtain ⟨v?, values, s'⟩ := x
      by_cases hnil : d.choices plan e = []
      · obtain ⟨hnone, hsource⟩ := hempty hnil
        dsimp only at hvalues hnone hsource ⊢
        subst hnone hsource
        obtain ⟨hcurrent, hdry, hhits⟩ := ih (w := { w with entities, values })
          ⟨hentities, hvalues⟩ (Plan.draw plan d.cell.family s).2
        refine ⟨hcurrent, hdry.trans ?_, fun m hm => (hhits m hm).later hdraw hnil⟩
        rw [dry_succ_iff, hdraw]
        exact (and_iff_right fun e' he' => Option.some.inj he' ▸ hnil).symm
      · obtain ⟨v, hv, hsome⟩ := hsome hnil
        dsimp only at hvalues hsome ⊢
        subst hsome
        refine ⟨⟨hentities, hvalues⟩, iff_of_false (Option.some_ne_none _) fun hdry => ?_,
          fun m hm => ?_⟩
        · exact hnil ((dry_succ_iff.1 hdry).1 e hdraw)
        · cases hm
          exact .mk (Nat.succ_pos attempts) (dry_zero plan d s) hdraw hv

/-! ## Walks that never end -/

/-- The number of times that a walk draws an entity for one move. -/
def attempts (plan : S) (d : Definition S V) : Nat := max (Plan.entityCount plan d.cell.family) 1

theorem Current.next (h : w.Current plan d) (s : Source) :
    (w.next plan d .random s).2.1.Current plan d ∧
      ((w.next plan d .random s).1 = none ↔ Dry plan d (attempts plan d) s) ∧
      ∀ m, (w.next plan d .random s).1 = some m → Hits plan d (attempts plan d) s m :=
  h.nextRandom (attempts plan d) s

/-- The walk and the source after `n` draws. -/
def after (plan : S) (d : Definition S V) (n : Nat) (w : ChangeWalk V) (s : Source) :
    ChangeWalk V × Source :=
  (fun x => (x.1.next plan d .random x.2).2)^[n] (w, s)

theorem Current.after (h : w.Current plan d) (n : Nat) (s : Source) :
    (w.after plan d n s).1.Current plan d := by
  unfold ChangeWalk.after
  induction n generalizing w s with
  | zero => exact h
  | succ n ih => exact ih (h.next s).1 _

theorem not_dry {k : Nat} (hk : 0 < k) (hmovable : Plan.movable plan d.cell.family ≠ [])
    (h : ∀ e ∈ Plan.movable plan d.cell.family, d.choices plan e ≠ []) (s : Source) :
    ¬Dry plan d k s := by
  intro hdry
  obtain ⟨e, he, hdrawn⟩ := Plan.exists_drawn hmovable 0 s
  exact h e he (hdry 0 hk e hdrawn)

theorem choices_ne_nil (hrange : d.range.isPerEntity = false ∨ d.allowsUnassigned) {e e' : Nat}
    (h : d.choices plan e ≠ []) : d.choices plan e' ≠ [] := by
  rcases hrange with hrange | hunassigned
  · rwa [d.choices_eq hrange plan e' e]
  · unfold Definition.choices
    rw [if_pos hunassigned]
    nofun

/-- An entity without values may be drawn for ever. -/
theorem exists_dry {e : Nat} (he : e ∈ Plan.movable plan d.cell.family)
    (hnil : d.choices plan e = [])
    (hsize : 2 * (Plan.movable plan d.cell.family).length ≤ UInt32.size) :
    ∃ s, ∀ k, Dry plan d k s := by
  obtain ⟨i, hi, hget⟩ := List.getElem_of_mem he
  obtain ⟨word, hword⟩ := Source.exists_steady hsize hi
  have hdraw : ∀ position, Plan.draw plan d.cell.family (Source.steady word position) =
      (some e, Source.steady word (position + 1)) := fun position => by
    rw [Plan.draw_of_ne (List.ne_nil_of_mem he), hword, List.getElem?_eq_getElem hi, hget]
  have hdry : ∀ k position, Dry plan d k (Source.steady word position) := by
    intro k
    induction k with
    | zero => exact fun position => dry_zero plan d _
    | succ k ih =>
      intro position
      rw [dry_succ_iff, hdraw]
      exact ⟨fun e' he' => Option.some.inj he' ▸ hnil, ih _⟩
  exact ⟨Source.steady word 0, fun k => hdry k 0⟩

/-- **Random changes.**  After any number of draws a walk yields a move unless the next draws of an
entity, as many as there are entities, all fall on entities without values; the move is one of the
first entity drawn that has values. So the walk never ends if all movable entities have values, and
in particular if one has, where the values are the same for all or an entity may stay unassigned. If
a movable entity has none, there is a source for which the walk ends with the first draw. -/
theorem next_random (h : w.Current plan d) :
    (∀ n s, let x := w.after plan d n s
      ((x.1.next plan d .random x.2).1 = none ↔ Dry plan d (attempts plan d) x.2) ∧
        (∀ m, (x.1.next plan d .random x.2).1 = some m →
          Hits plan d (attempts plan d) x.2 m) ∧
        (Plan.movable plan d.cell.family ≠ [] →
          (∀ e ∈ Plan.movable plan d.cell.family, d.choices plan e ≠ []) →
            (x.1.next plan d .random x.2).1 ≠ none) ∧
        (d.range.isPerEntity = false ∨ d.allowsUnassigned →
          (∃ e ∈ Plan.movable plan d.cell.family, d.choices plan e ≠ []) →
            (x.1.next plan d .random x.2).1 ≠ none)) ∧
      (2 * (Plan.movable plan d.cell.family).length ≤ UInt32.size →
        (∃ e ∈ Plan.movable plan d.cell.family, d.choices plan e = []) →
          ∃ s, (w.next plan d .random s).1 = none) := by
  refine ⟨fun n s => ?_, fun hsize ⟨e, he, hnil⟩ => ?_⟩
  · intro x
    obtain ⟨-, hnone, hhits⟩ := (h.after n s).next x.2
    have hpos : 0 < attempts plan d := Nat.lt_of_lt_of_le Nat.one_pos (Nat.le_max_right _ _)
    have hall (hmovable : Plan.movable plan d.cell.family ≠ [])
        (hvalues : ∀ e ∈ Plan.movable plan d.cell.family, d.choices plan e ≠ []) :
        (x.1.next plan d .random x.2).1 ≠ none :=
      mt hnone.1 (not_dry hpos hmovable hvalues x.2)
    exact ⟨hnone, hhits, hall, fun hrange ⟨e, he, hvalues⟩ =>
      hall (List.ne_nil_of_mem he) fun e' _ => choices_ne_nil hrange hvalues⟩
  · obtain ⟨s, hdry⟩ := exists_dry he hnil hsize
    exact ⟨s, (h.next s).2.1.2 (hdry _)⟩

end ChangeWalk

/-! ## A row with values for one of two cells -/

namespace Row

/-- Only the second cell has a value to take. -/
def patchy : Definition Row Nat where
  entityClass := "Row"
  cell := cell
  range := .perEntity fun _ e => if e = 1 then [1] else []

def twoGaps : Row := ⟨[none, none], none⟩

/-- A source may fall on the first cell twice, and the walk ends though the second one has a value
to take. -/
theorem patchy_ends : ¬ ∀ (plan : Row) (d : Definition Row Nat) (s : Source),
    (∃ e ∈ Plan.movable plan d.cell.family, d.choices plan e ≠ []) →
      (({} : ChangeWalk Nat).next plan d .random s).1 ≠ none := by
  intro h
  exact h twoGaps patchy (.given (fun _ => 0) 0) ⟨1, by decide, by decide⟩ (by decide +kernel)

end Row

/-- The walk over two cells of which one has no values may end, but not where cells may be emptied as
well. -/
theorem ChangeWalk.next_random_patchy :
    let w : ChangeWalk Nat := {}
    let d : Definition Row Nat := { Row.patchy with allowsUnassigned := true }
    w.Current Row.twoGaps Row.patchy ∧ w.Current Row.twoGaps d ∧
      (∃ s, (w.next Row.twoGaps Row.patchy .random s).1 = none) ∧
      ∀ n s, let x := w.after Row.twoGaps d n s
        (x.1.next Row.twoGaps d .random x.2).1 ≠ none := by
  intro w d
  have hpatchy : w.Current Row.twoGaps Row.patchy :=
    ChangeWalk.current_restart Row.twoGaps Row.patchy w
  have hd : w.Current Row.twoGaps d := ChangeWalk.current_restart Row.twoGaps d w
  refine ⟨hpatchy, hd, ?_, fun n s => ?_⟩
  · exact (ChangeWalk.next_random hpatchy).2 (by decide) ⟨0, by decide, by decide⟩
  · exact ((ChangeWalk.next_random hd).1 n s).2.2.2 (.inr rfl) ⟨1, by decide, by decide⟩

end PlanSearch
