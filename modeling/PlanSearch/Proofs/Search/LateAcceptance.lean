import Mathlib.Data.List.Rotate
import PlanSearch.Acceptance

/-!
# How far late acceptance looks back

The ring of late acceptance is a window on the scores of a phase: on the score of its start, as
often as there are places, and on those of its steps behind it. Each step moves the window on by one
place. So the oldest score in the ring is that of as many steps ago as there are places, or that of
the phase start as long as there were fewer steps, whatever was in the ring when the phase started.

    h.IsInside → (h.push a).window = h.window.tail ++ [some a]                      (window_push)
    h.Recalls start xs → the oldest score is `ago h.size start xs`                  (Recalls.oldest)
    the events of a phase lead from a ring that recalls nothing to one that recalls
    the scores of its steps                                                         (recalls_hears)
    candidates are accepted if not below the last score or not below the oldest one (late_accepts)
-/

namespace PlanSearch

variable {sh : Shape}

namespace History

variable {h : History sh} {start a : Score sh} {xs : List (Score sh)}

/-! ## The ring as a window -/

/-- The next score has a place in the ring. -/
def IsInside (h : History sh) : Prop := h.position < h.scores.length

/-- The scores in the ring, from the oldest to the newest. -/
def window (h : History sh) : List (Option (Score sh)) := h.scores.rotate h.position

@[simp]
theorem size_empty (n : Nat) : (empty n : History sh).size = max n 1 := List.length_replicate

@[simp]
theorem size_push (h : History sh) (a : Score sh) : (h.push a).size = h.size := List.length_set

@[simp]
theorem size_fill (h : History sh) (a : Option (Score sh)) : (h.fill a).size = h.size :=
  List.length_map _

theorem IsInside.size_pos (hin : h.IsInside) : 0 < h.size := Nat.zero_lt_of_lt hin

theorem isInside_empty (n : Nat) : (empty n : History sh).IsInside := by
  have hplace : 0 < (empty n : History sh).size := by
    rw [size_empty]
    exact Nat.le_max_right n 1
  exact hplace

theorem IsInside.push (hin : h.IsInside) (a : Score sh) : (h.push a).IsInside := by
  have hnext : (h.position + 1) % h.scores.length < h.scores.length := Nat.mod_lt _ hin.size_pos
  exact hnext.trans_eq (size_push h a).symm

theorem IsInside.fill (hin : h.IsInside) (a : Option (Score sh)) : (h.fill a).IsInside :=
  hin.size_pos.trans_eq (size_fill h a).symm

theorem oldest_eq (hin : h.IsInside) : h.oldest = (h.window[0]?).join := by
  unfold oldest window
  rw [List.getElem?_rotate hin.size_pos, Nat.zero_add, Nat.mod_eq_of_lt hin]

/-- A score takes the place of the oldest one and is the newest from then on. -/
theorem window_push (hin : h.IsInside) (a : Score sh) :
    (h.push a).window = h.window.tail ++ [some a] := by
  obtain ⟨before, behind, hscores, hposition, hset⟩ :
      ∃ before behind, h.scores = before ++ h.scores[h.position] :: behind ∧
        before.length = h.position ∧
        h.scores.set h.position (some a) = before ++ some a :: behind := List.exists_of_set hin
  have hpushed : (h.push a).window =
      ((before ++ [some a]) ++ behind).rotate (before ++ [some a]).length := by
    have hlength : h.scores.length = (h.scores.set h.position (some a)).length :=
      (size_push h a).symm
    show (h.scores.set h.position (some a)).rotate ((h.position + 1) % h.scores.length) = _
    rw [hlength, List.rotate_mod, hset, List.append_assoc, List.length_append, hposition]
    rfl
  have hold : h.window = h.scores[h.position] :: behind ++ before := by
    unfold window
    rw [← List.rotate_append_length_eq, hposition, ← hscores]
  rw [hpushed, List.rotate_append_length_eq, hold, List.cons_append, List.tail_cons,
    List.append_assoc]

theorem window_fill (h : History sh) (a : Option (Score sh)) :
    (h.fill a).window = List.replicate h.size a := by
  unfold window fill
  rw [List.rotate_zero, List.map_const']
  rfl

/-- What a ring holds once it was filled depends on its size alone. -/
theorem fill_congr {h h' : History sh} (hsize : h.size = h'.size) (a : Option (Score sh)) :
    h.fill a = h'.fill a := by
  unfold fill
  rw [List.map_const', List.map_const']
  exact congrArg (fun n => (⟨List.replicate n a, 0⟩ : History sh)) hsize

/-! ## What the ring recalls -/

/-- The score of `n` steps ago, when a phase started with `start` and made steps with the scores
`xs`; that of its start if it made fewer steps. -/
def ago (n : Nat) (start : Score sh) (xs : List (Score sh)) : Score sh :=
  if n ≤ xs.length then xs.getD (xs.length - n) start else start

/-- The ring holds the last of the scores of a phase. -/
structure Recalls (start : Score sh) (xs : List (Score sh)) (h : History sh) : Prop where
  isInside : h.IsInside
  window_eq : h.window = ((List.replicate h.size start ++ xs).drop xs.length).map some

theorem Recalls.fill (hin : h.IsInside) (start : Score sh) :
    (h.fill (some start)).Recalls start [] := by
  refine ⟨hin.fill _, ?_⟩
  rw [window_fill, size_fill, List.append_nil, List.length_nil, List.drop_zero, List.map_replicate]

theorem Recalls.push (hr : h.Recalls start xs) (a : Score sh) :
    (h.push a).Recalls start (xs ++ [a]) := by
  refine ⟨hr.isInside.push a, ?_⟩
  have hplace : 0 < h.size := Nat.zero_lt_of_lt hr.isInside
  have hlength : xs.length + 1 ≤ (List.replicate h.size start ++ xs).length := by
    rw [List.length_append, List.length_replicate]
    omega
  rw [window_push hr.isInside, hr.window_eq, size_push, ← List.map_tail, List.tail_drop,
    ← List.append_assoc, List.length_append, List.length_singleton,
    List.drop_append_of_le_length hlength, List.map_append, List.map_singleton]

theorem Recalls.oldest (hr : h.Recalls start xs) : h.oldest = some (ago h.size start xs) := by
  have hplace : 0 < h.size := Nat.zero_lt_of_lt hr.isInside
  rw [oldest_eq hr.isInside, hr.window_eq, List.getElem?_map, List.getElem?_drop, Nat.add_zero,
    List.getElem?_append, List.length_replicate]
  unfold ago
  by_cases hfew : xs.length < h.size
  · rw [if_pos hfew, if_neg (Nat.not_le_of_lt hfew), List.getElem?_replicate_of_lt hfew]
    rfl
  · have hmany : h.size ≤ xs.length := Nat.le_of_not_lt hfew
    have hback : xs.length - h.size < xs.length := by omega
    rw [if_neg hfew, if_pos hmany, List.getD_eq_getElem?_getD, List.getElem?_eq_getElem hback]
    rfl

end History

/-! ## What late acceptance hears -/

namespace Acceptance

variable {h : History sh}

/-- Hears events one after another, each with the step score that is known then. -/
def hears (a : Acceptance sh) (heard : List (Event × Option (Score sh))) : Acceptance sh :=
  heard.foldl (fun a n => a.hear n.1 n.2) a

/-- The scores of the steps that ended. -/
def stepScoresOf (heard : List (Event × Option (Score sh))) : List (Score sh) :=
  heard.filterMap fun n => if n.1 = .stepEnded then n.2 else none

theorem stepScoresOf_append (heard heard' : List (Event × Option (Score sh))) :
    stepScoresOf (heard ++ heard') = stepScoresOf heard ++ stepScoresOf heard' :=
  List.filterMap_append

/-- The start of a phase fills the ring, the end of a step adds to it, and nothing else matters. -/
theorem hear_cases (h : History sh) (e : Event) (score : Option (Score sh)) :
    (e = .phaseStarted ∧ (late h).hear e score = late (h.fill score)) ∨
    (∃ a, stepScoresOf [(e, score)] = [a] ∧ (late h).hear e score = late (h.push a)) ∨
    (stepScoresOf [(e, score)] = [] ∧ (late h).hear e score = late h) := by
  cases e with
  | phaseStarted => exact .inl ⟨rfl, rfl⟩
  | stepEnded =>
    cases score with
    | none => exact .inr (.inr ⟨rfl, rfl⟩)
    | some a => exact .inr (.inl ⟨a, rfl, rfl⟩)
  | solvingStarted => exact .inr (.inr ⟨rfl, rfl⟩)
  | stepStarted => exact .inr (.inr ⟨rfl, rfl⟩)
  | phaseEnded => exact .inr (.inr ⟨rfl, rfl⟩)
  | solvingEnded => exact .inr (.inr ⟨rfl, rfl⟩)

/-- Every event leaves the ring its size, and the next score a place in it. -/
theorem hear_late (hin : h.IsInside) (e : Event) (score : Option (Score sh)) :
    ∃ h' : History sh, (late h).hear e score = late h' ∧ h'.size = h.size ∧ h'.IsInside := by
  rcases hear_cases h e score with ⟨-, hhear⟩ | ⟨a, -, hhear⟩ | ⟨-, hhear⟩
  · exact ⟨_, hhear, History.size_fill h score, hin.fill score⟩
  · exact ⟨_, hhear, History.size_push h a, hin.push a⟩
  · exact ⟨h, hhear, rfl, hin⟩

theorem hears_late (hin : h.IsInside) (heard : List (Event × Option (Score sh))) :
    ∃ h' : History sh, (late h).hears heard = late h' ∧ h'.size = h.size ∧ h'.IsInside := by
  induction heard generalizing h with
  | nil => exact ⟨h, rfl, rfl, hin⟩
  | cons n heard ih =>
    obtain ⟨h₁, hhear, hsize, hin₁⟩ := hear_late hin n.1 n.2
    obtain ⟨h', hhears, hsize', hin'⟩ := ih hin₁
    refine ⟨h', ?_, hsize'.trans hsize, hin'⟩
    rw [← hhears, ← hhear]
    rfl

/-- An event within a phase adds the score of its step, if it ends one. -/
theorem hear_recalls {start : Score sh} {xs : List (Score sh)} (hr : h.Recalls start xs)
    {n : Event × Option (Score sh)} (hn : n.1 ≠ .phaseStarted) :
    ∃ h' : History sh, (late h).hear n.1 n.2 = late h' ∧ h'.size = h.size ∧
      h'.Recalls start (xs ++ stepScoresOf [n]) := by
  rcases hear_cases h n.1 n.2 with ⟨hstart, -⟩ | ⟨a, hscore, hhear⟩ | ⟨hscore, hhear⟩
  · exact absurd hstart hn
  · exact ⟨_, hhear, History.size_push h a, hscore ▸ hr.push a⟩
  · exact ⟨h, hhear, rfl, by rwa [hscore, List.append_nil]⟩

theorem hears_recalls {start : Score sh} {xs : List (Score sh)} (hr : h.Recalls start xs)
    {heard : List (Event × Option (Score sh))} (hheard : ∀ n ∈ heard, n.1 ≠ .phaseStarted) :
    ∃ h' : History sh, (late h).hears heard = late h' ∧ h'.size = h.size ∧
      h'.Recalls start (xs ++ stepScoresOf heard) := by
  induction heard generalizing h xs with
  | nil => exact ⟨h, rfl, rfl, by rwa [stepScoresOf, List.filterMap_nil, List.append_nil]⟩
  | cons n heard ih =>
    obtain ⟨hn, hheard⟩ := List.forall_mem_cons.1 hheard
    obtain ⟨h₁, hhear, hsize, hr₁⟩ := hear_recalls hr hn
    obtain ⟨h', hhears, hsize', hr'⟩ := ih hr₁ hheard
    refine ⟨h', ?_, hsize'.trans hsize, ?_⟩
    · rw [← hhears, ← hhear]
      rfl
    · rwa [List.append_assoc, ← stepScoresOf_append] at hr'

/-- A candidate is measured against the last score and against the oldest one. -/
theorem accepts_late {a : Score sh} (holdest : h.oldest = some a) (last candidate : Score sh) :
    (late h).accepts last candidate = true ↔ last ≤ candidate ∨ a ≤ candidate := by
  show (decide (last ≤ candidate) || h.oldest.all fun score => score ≤ candidate) = true ↔ _
  rw [holdest, Bool.or_eq_true, Option.all_some]
  rw [decide_eq_true_iff, decide_eq_true_iff]

/-- Whatever it hears, late acceptance keeps a place for the next score. Since the last start of a
phase it accepts what is not below the last score or not below that of as many steps ago as it looks
back, and what was before that start does not matter. -/
theorem late_accepts (size : Nat) (heard : List (Event × Option (Score sh))) :
    ∃ h : History sh, (late (.empty size)).hears heard = late h ∧
      h.size = max size 1 ∧ h.position < h.scores.length ∧
      ∀ (earlier : List (Event × Option (Score sh))) (start : Score sh)
        (later : List (Event × Option (Score sh))),
        heard = earlier ++ (.phaseStarted, some start) :: later →
        (∀ n ∈ later, n.1 ≠ .phaseStarted) →
          (late (.empty size)).hears ((.phaseStarted, some start) :: later) = late h ∧
          ∀ last candidate : Score sh, (late h).accepts last candidate = true ↔
            last ≤ candidate ∨ History.ago (max size 1) start (stepScoresOf later) ≤ candidate := by
  obtain ⟨h, hhears, hsize, hin⟩ := hears_late (History.isInside_empty size) heard
  rw [History.size_empty] at hsize
  refine ⟨h, hhears, hsize, hin, ?_⟩
  rintro earlier start later rfl hlater
  obtain ⟨h₀, hearlier, hsize₀, hin₀⟩ := hears_late (History.isInside_empty size) earlier
  have hphase : (late (.empty size)).hears (earlier ++ (.phaseStarted, some start) :: later) =
      (late (h₀.fill (some start))).hears later := by
    unfold hears at hearlier ⊢
    rw [List.foldl_append, hearlier]
    rfl
  have hforgotten : h₀.fill (some start) = (History.empty size).fill (some start) :=
    History.fill_congr hsize₀ _
  obtain ⟨h', hhears', hsize', hr⟩ := hears_recalls (History.Recalls.fill hin₀ start) hlater
  obtain rfl : h = h' := by
    rw [hhears, hhears'] at hphase
    exact Acceptance.late.inj hphase
  refine ⟨?_, ?_⟩
  · rw [← hhears', hforgotten]
    rfl
  · rw [← hsize]
    exact accepts_late hr.oldest

/-- After a phase with higher scores, a new one starts with 1 and makes steps with 2 and 3. With two
places, 2 is the score to be compared with. -/
theorem late_accepts_two : ∃ h : History .simple,
    (late (.empty 2)).hears [(.phaseStarted, some (.single 0 8)), (.stepEnded, some (.single 0 9)),
        (.phaseStarted, some (.single 0 1)), (.stepStarted, some (.single 0 1)),
        (.stepEnded, some (.single 0 2)), (.stepEnded, some (.single 0 3))] = late h ∧
      (late h).accepts (.single 0 3) (.single 0 2) = true ∧
      (late h).accepts (.single 0 3) (.single 0 1) = false := by
  obtain ⟨h, hhears, -, -, hphase⟩ := late_accepts 2
    ([(.phaseStarted, some (.single 0 8)), (.stepEnded, some (.single 0 9)),
      (.phaseStarted, some (.single 0 1)), (.stepStarted, some (.single 0 1)),
      (.stepEnded, some (.single 0 2)), (.stepEnded, some (.single 0 3))] :
      List (Event × Option (Score .simple)))
  obtain ⟨-, haccepts⟩ := hphase
    [(.phaseStarted, some (.single 0 8)), (.stepEnded, some (.single 0 9))] (.single 0 1)
    [(.stepStarted, some (.single 0 1)), (.stepEnded, some (.single 0 2)),
      (.stepEnded, some (.single 0 3))] rfl (by decide)
  refine ⟨h, hhears, (haccepts _ _).2 (by decide), ?_⟩
  rw [Bool.eq_false_iff, Ne, haccepts]
  decide

end Acceptance

end PlanSearch
