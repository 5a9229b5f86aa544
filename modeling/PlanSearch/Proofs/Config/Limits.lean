import PlanSearch.Proofs.Config.Building
import PlanSearch.Proofs.Run.Heeding

/-!
# The limits of a configuration

A configuration with limits builds a termination that holds as soon as one of them is reached. The
two parts of the time limit count as one limit, their sum; where the sum is zero, there is no limit
of time, even if one of the parts is set. All other limits may be zero, and are reached at once then.

    c.limits = .ok ts → (t ∈ ts ↔ c.Sets t)                              (mem_limits)
    t ∈ built → (t.holds p ↔ c.Reached p)                                (build_reached)
-/

namespace PlanSearch

variable {sh : Shape} {p : Progress sh}

namespace TerminationConfig

variable {c : TerminationConfig} {t : Termination sh}

/-- The configuration asks for the limit `t`. -/
inductive Sets (c : TerminationConfig) : Termination sh → Prop
  | time (h : c.time ≠ 0) : Sets c (.time c.time)
  | steps {n : UInt64} (h : c.steps = some n) : Sets c (.steps n.toNat)
  | unimproved {n : UInt64} (h : c.unimproved = some n) : Sets c (.unimproved n.toNat)
  | bestScore {text : String} {target : Score sh} (h : c.bestScore = some text)
      (hread : Score.read text = .ok target) : Sets c (.bestScore target)

/-- One of the limits is reached. -/
inductive Reached (c : TerminationConfig) (p : Progress sh) : Prop
  /-- A time of zero is no limit. -/
  | time (h : c.time ≠ 0) (hreached : c.time ≤ p.elapsed)
  | steps {n : UInt64} (h : c.steps = some n) (hreached : n.toNat ≤ p.steps)
  | unimproved {n : UInt64} (h : c.unimproved = some n) (hreached : n.toNat ≤ p.unimproved)
  | bestScore {text : String} {target best : Score sh} (h : c.bestScore = some text)
      (hread : Score.read text = .ok target) (hbest : p.bestScore = some best)
      (hreached : target ≤ best)

/-- The limit of the score can be read as a score of the problem. -/
def Readable (sh : Shape) (c : TerminationConfig) : Prop :=
  ∀ text ∈ c.bestScore, ∃ target : Score sh, Score.read text = .ok target

theorem reached_iff : c.Reached p ↔ ∃ t, c.Sets t ∧ t.holds p := by
  constructor
  · rintro (⟨h, hreached⟩ | ⟨h, hreached⟩ | ⟨h, hreached⟩ | ⟨h, hread, hbest, hreached⟩)
    · exact ⟨_, .time h, by rw [Termination.holds]; exact decide_eq_true hreached⟩
    · exact ⟨_, .steps h, by rw [Termination.holds]; exact decide_eq_true hreached⟩
    · exact ⟨_, .unimproved h, by rw [Termination.holds]; exact decide_eq_true hreached⟩
    · exact ⟨_, .bestScore h hread, by rw [Termination.holds, hbest]; exact decide_eq_true hreached⟩
  · rintro ⟨t, hset, hholds⟩
    cases hset with
    | time h =>
      rw [Termination.holds] at hholds
      exact .time h (of_decide_eq_true hholds)
    | steps h =>
      rw [Termination.holds] at hholds
      exact .steps h (of_decide_eq_true hholds)
    | unimproved h =>
      rw [Termination.holds] at hholds
      exact .unimproved h (of_decide_eq_true hholds)
    | bestScore h hread =>
      rw [Termination.holds, Option.any_eq_true] at hholds
      obtain ⟨best, hbest, hle⟩ := hholds
      exact .bestScore h hread hbest (of_decide_eq_true hle)

/-! ## Building -/

theorem bestScoreLimit?_of_readable (h : c.Readable sh) : ∃ limit : Option (Termination sh),
    c.bestScoreLimit? = .ok limit ∧ ∀ t, limit = some t ↔
      ∃ text target, c.bestScore = some text ∧ Score.read text = .ok target ∧ t = .bestScore target := by
  unfold bestScoreLimit?
  cases hbest : c.bestScore with
  | none => exact ⟨none, rfl, fun t => ⟨nofun, nofun⟩⟩
  | some text =>
    obtain ⟨target, hread⟩ := h text hbest
    refine ⟨some (.bestScore target), by simp only [hread], fun t => ⟨?_, ?_⟩⟩
    · rintro ⟨⟩
      exact ⟨text, target, rfl, hread, rfl⟩
    · rintro ⟨_, target', ⟨⟩, hread', rfl⟩
      rw [hread] at hread'
      rw [Except.ok.inj hread']

/-- The limits that are listed are those that are set. -/
theorem mem_limits (hfits : c.Fits) (hread : c.Readable sh) :
    ∃ ts : List (Termination sh), c.limits = .ok ts ∧ ∀ t, t ∈ ts ↔ c.Sets t := by
  obtain ⟨limit, hlimit, hmem⟩ := bestScoreLimit?_of_readable hread
  unfold limits
  rw [timeLimit_of_fits hfits, hlimit]
  refine ⟨_, rfl, fun t => ?_⟩
  simp only [List.mem_filterMap, id, exists_eq_right, List.mem_cons, List.not_mem_nil, or_false]
  constructor
  · rintro (h | h | h | h)
    · obtain ⟨n, hn, rfl⟩ := Option.map_eq_some_iff.1 h.symm
      split at hn
      · cases hn
      · next hne =>
        cases hn
        exact .time hne
    · obtain ⟨n, hn, rfl⟩ := Option.map_eq_some_iff.1 h.symm
      exact .steps hn
    · obtain ⟨n, hn, rfl⟩ := Option.map_eq_some_iff.1 h.symm
      exact .unimproved hn
    · obtain ⟨text, target, hset, hread, rfl⟩ := (hmem t).1 h.symm
      exact .bestScore hset hread
  · intro h
    cases h with
    | time h => exact .inl (by rw [if_neg h]; rfl)
    | steps h => exact .inr (.inl (by rw [h]; rfl))
    | unimproved h => exact .inr (.inr (.inl (by rw [h]; rfl)))
    | bestScore h hread => exact .inr (.inr (.inr ((hmem _).2 ⟨_, _, h, hread, rfl⟩).symm))

/-- One limit is the termination itself, several are joined. -/
theorem build_of_limits {ts : List (Termination sh)} (h : c.limits = .ok ts) :
    ∃ built : Option (Termination sh), c.build = .ok built ∧ (built = none ↔ ts = []) ∧
      ∀ t ∈ built, ∀ p, t.holds p ↔ ∃ limit ∈ ts, limit.holds p := by
  unfold build
  rw [h]
  match ts with
  | [] => exact ⟨none, rfl, by simp, nofun⟩
  | [t] =>
    refine ⟨some t, rfl, by simp, ?_⟩
    rintro _ ⟨⟩ p
    simp only [List.mem_singleton, exists_eq_left]
  | t :: u :: ts =>
    refine ⟨some (.any (t :: u :: ts)), rfl, by simp, ?_⟩
    rintro _ ⟨⟩ p
    rw [Termination.holds]
    exact Termination.someHolds_iff

/-- A limit that is set is one that the configuration asks for. -/
theorem exists_sets_iff (hread : c.Readable sh) : (∃ t : Termination sh, c.Sets t) ↔
    c.time ≠ 0 ∨ c.steps ≠ none ∨ c.unimproved ≠ none ∨ c.bestScore ≠ none := by
  constructor
  · rintro ⟨t, hset⟩
    cases hset with
    | time h => exact .inl h
    | steps h => exact .inr (.inl (by rw [h]; nofun))
    | unimproved h => exact .inr (.inr (.inl (by rw [h]; nofun)))
    | bestScore h hread => exact .inr (.inr (.inr (by rw [h]; nofun)))
  · rintro (h | h | h | h)
    · exact ⟨_, .time h⟩
    · obtain ⟨n, hn⟩ := Option.ne_none_iff_exists'.1 h
      exact ⟨_, .steps hn⟩
    · obtain ⟨n, hn⟩ := Option.ne_none_iff_exists'.1 h
      exact ⟨_, .unimproved hn⟩
    · obtain ⟨text, htext⟩ := Option.ne_none_iff_exists'.1 h
      obtain ⟨target, htarget⟩ := hread text htext
      exact ⟨_, .bestScore htext htarget⟩

/-- **Terminations of configurations.**  A termination is built unless there is neither a time other
than zero nor another limit, and it holds as soon as a limit is reached. So a termination is built
for each configuration in which something is set, if no time of zero is. -/
theorem build_reached (hfits : c.Fits) (hread : c.Readable sh) :
    ∃ built : Option (Termination sh), c.build = .ok built ∧
      (built = none ↔
        c.time = 0 ∧ c.steps = none ∧ c.unimproved = none ∧ c.bestScore = none) ∧
      (∀ t ∈ built, ∀ p, t.holds p ↔ c.Reached p) ∧
      ((c.seconds ≠ none ∨ c.milliseconds ≠ none → c.time ≠ 0) → (built = none ↔ c.isEmpty)) := by
  obtain ⟨ts, hlimits, hmem⟩ := mem_limits hfits hread
  obtain ⟨built, hbuilt, hnone, hholds⟩ := build_of_limits hlimits
  have hnone : built = none ↔
      c.time = 0 ∧ c.steps = none ∧ c.unimproved = none ∧ c.bestScore = none := by
    have hsets := not_congr (exists_sets_iff hread)
    simp only [not_or, not_not] at hsets
    rw [hnone, List.eq_nil_iff_forall_not_mem, ← hsets, not_exists]
    exact forall_congr' fun t => not_congr (hmem t)
  refine ⟨built, hbuilt, hnone, fun t ht p => ?_, fun htime => ?_⟩
  · rw [hholds t ht p, reached_iff]
    simp only [hmem]
  · rw [hnone]
    unfold isEmpty
    rw [beq_iff_eq]
    constructor
    · rintro ⟨hzero, hsteps, hunimproved, hbest⟩
      have hparts := mt htime (not_not.2 hzero)
      rw [not_or, not_not, not_not] at hparts
      obtain ⟨seconds, milliseconds, bestScore, steps, unimproved⟩ := c
      obtain ⟨rfl, rfl⟩ := hparts
      cases hsteps
      cases hunimproved
      cases hbest
      rfl
    · rintro rfl
      exact ⟨rfl, rfl, rfl, rfl⟩

/-- One and a half seconds, ten steps or a score: each of them is enough. -/
theorem build_reached_seconds :
    let c : TerminationConfig :=
      { seconds := some 1, milliseconds := some 500, bestScore := some "0hard/-10soft",
        steps := some 10 }
    c.Fits ∧ c.Readable .hardSoft ∧ ∃ t : Termination .hardSoft, c.build = .ok (some t) ∧
      t.holds { elapsed := 1500 } ∧ t.holds { steps := 10 } ∧ ¬t.holds { elapsed := 1499, steps := 9 } := by
  intro c
  have hfits : c.Fits := by decide
  have hread : c.Readable .hardSoft := by
    rintro _ ⟨⟩
    exact ⟨⟨[0, -10], rfl⟩, rfl⟩
  obtain ⟨built, hbuilt, hnone, hholds, -⟩ := build_reached hfits hread
  cases built with
  | none =>
    obtain ⟨-, hsteps, -⟩ := hnone.1 rfl
    cases hsteps
  | some t =>
    refine ⟨hfits, hread, t, hbuilt, (hholds t rfl _).2 (.time (by decide) (by decide)),
      (hholds t rfl _).2 (.steps rfl (by decide)), fun h => ?_⟩
    rcases (hholds t rfl _).1 h with ⟨-, h⟩ | ⟨hset, h⟩ | ⟨hset, -⟩ | ⟨-, -, hbest, -⟩
    · exact absurd h (by decide)
    · cases hset
      exact absurd h (by decide)
    · cases hset
    · cases hbest

/-- A time of zero is set, and nothing is built. -/
theorem no_time_is_no_limit :
    let c : TerminationConfig := { seconds := some 0, milliseconds := some 0 }
    c.Fits ∧ c.Readable .simple ∧ c.isEmpty = false ∧
      (c.build : Except Failure (Option (Termination .simple))) = .ok none := by
  intro c
  have hfits : c.Fits := by decide
  have hlimits : (c.limits : Except Failure (List (Termination .simple))) = .ok [] := by
    unfold limits
    rw [timeLimit_of_fits hfits, if_pos (by decide)]
    rfl
  exact ⟨hfits, nofun, rfl, by unfold build; rw [hlimits]; rfl⟩

end TerminationConfig

end PlanSearch
