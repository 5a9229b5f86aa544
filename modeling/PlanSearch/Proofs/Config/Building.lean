import PlanSearch.Proofs.Config.Elaboration
import PlanSearch.Proofs.Solver.Walk

/-!
# What can go wrong when a solver is built

A configuration that does not fit its domain is reported as an error of the configuration. The
arithmetic of building has one place where it can overflow: the two parts of a time limit are added
up in milliseconds, as a 64-bit number. Where each time limit fits, a solver is built or an error of
the configuration is reported; a time limit of the solver that does not fit is an overflow.

    c.Fits → c.timeLimit = .ok …                   (TerminationConfig.timeLimit_of_fits)
    ¬c.Fits → c.timeLimit = .error .overflow       (TerminationConfig.timeLimit_of_not_fits)
-/

namespace PlanSearch

/-! ## Ways to fail -/

/-- All that the computation fails with are errors of the configuration, and overflows where there
is an excess. -/
def Complains {α : Type} (excess : Prop) (x : Except Failure α) : Prop :=
  ∀ failure, x = .error failure →
    (∃ message, failure = .error (.configuration message)) ∨ failure = .fault .overflow ∧ excess

namespace Complains

variable {α β : Type} {excess : Prop}

theorem ok (a : α) : Complains excess (.ok a) := nofun

theorem bind {x : Except Failure α} {g : α → Except Failure β} (hx : Complains excess x)
    (hg : ∀ a, Complains excess (g a)) : Complains excess (x >>= g) := by
  intro failure h
  rcases Checked.bind_eq_error h with h | ⟨a, -, h⟩
  · exact hx _ h
  · exact hg a _ h

theorem map {x : Except Failure α} (hx : Complains excess x) (f : α → β) :
    Complains excess (f <$> x) := fun _ h => hx _ (Checked.map_eq_error h)

theorem mono {excess' : Prop} {x : Except Failure α} (hx : Complains excess x)
    (h : excess → excess') : Complains excess' x := fun failure hfailure =>
  (hx failure hfailure).imp id fun ⟨hover, hex⟩ => ⟨hover, h hex⟩

/-- An error of the configuration, reported as a failure. -/
theorem reported {x : Except SolverError α}
    (h : ∀ e, x = .error e → ∃ message, e = .configuration message) :
    Complains excess (x.mapError .error) := by
  intro failure hfailure
  cases x with
  | ok a => cases hfailure
  | error e =>
    cases hfailure
    obtain ⟨message, rfl⟩ := h e rfl
    exact .inl ⟨message, rfl⟩

theorem mapM {f : α → Except Failure β} {as : List α} (h : ∀ a ∈ as, Complains excess (f a)) :
    Complains excess (as.mapM f) := by
  intro failure hfailure
  obtain ⟨a, ha, hf⟩ := Checked.mapM_eq_error hfailure
  exact h a ha _ hf

end Complains

/-! ## Time limits -/

theorem Checked.count_of_lt {n : Nat} (h : n < UInt64.size) : Checked.count n = .ok n := if_pos h

theorem Checked.count_of_not_lt {n : Nat} (h : ¬n < UInt64.size) :
    Checked.count n = .error .overflow := if_neg h

namespace TerminationConfig

variable {sh : Shape}

/-- The time limit in milliseconds, zero if there is none. -/
def time (c : TerminationConfig) : Nat :=
  (c.seconds.getD 0).toNat * 1000 + (c.milliseconds.getD 0).toNat

/-- A 64-bit number holds the time limit in milliseconds. -/
def Fits (c : TerminationConfig) : Prop := c.time < UInt64.size

instance (c : TerminationConfig) : Decidable c.Fits := inferInstanceAs (Decidable (_ < _))

/-- The longest time limit. -/
example :
    ({ seconds := some 18446744073709551, milliseconds := some 615 } : TerminationConfig).Fits ∧
      ¬({ seconds := some 18446744073709551, milliseconds := some 616 } : TerminationConfig).Fits := by
  decide

theorem timeLimit_of_fits {c : TerminationConfig} (h : c.Fits) :
    c.timeLimit = .ok (if c.time = 0 then none else some c.time) := by
  unfold timeLimit
  unfold Fits time at h
  rw [Checked.count_of_lt (Nat.lt_of_le_of_lt (Nat.le_add_right _ _) h)]
  show Checked.count (_ + _) >>= _ = _
  rw [Checked.count_of_lt h]
  rfl

theorem timeLimit_of_not_fits {c : TerminationConfig} (h : ¬c.Fits) :
    c.timeLimit = .error .overflow := by
  unfold timeLimit
  unfold Fits time at h
  by_cases hseconds : (c.seconds.getD 0).toNat * 1000 < UInt64.size
  · rw [Checked.count_of_lt hseconds]
    show Checked.count (_ + _) >>= _ = _
    rw [Checked.count_of_not_lt h]
    rfl
  · rw [Checked.count_of_not_lt hseconds]
    rfl

theorem bestScoreLimit?_error {c : TerminationConfig} {e : SolverError}
    (h : (c.bestScoreLimit? : Except SolverError (Option (Termination sh))) = .error e) :
    ∃ message, e = .configuration message := by
  unfold bestScoreLimit? at h
  split at h
  · cases h
  · split at h
    · cases h
    · cases h
      exact ⟨_, rfl⟩

theorem complains_build (c : TerminationConfig) :
    Complains (¬c.Fits) (c.build : Except Failure (Option (Termination sh))) := by
  have htime : Complains (¬c.Fits) (c.timeLimit.mapError Failure.fault) := by
    by_cases hfits : c.Fits
    · rw [timeLimit_of_fits hfits]
      exact .ok _
    · rw [timeLimit_of_not_fits hfits]
      rintro _ ⟨⟩
      exact .inr ⟨rfl, hfits⟩
  refine .bind (.bind htime fun _ => .bind (.reported fun e => bestScoreLimit?_error) fun _ => .ok _) ?_
  intro ts
  split <;> exact .ok _

theorem build_of_not_fits {c : TerminationConfig} (h : ¬c.Fits) :
    (c.build : Except Failure (Option (Termination sh))) = .error (.fault .overflow) := by
  unfold build limits
  rw [timeLimit_of_not_fits h]
  rfl

theorem complains_buildOption (c : Option TerminationConfig) :
    Complains (∃ limits ∈ c, ¬limits.Fits)
      (buildOption c : Except Failure (Option (Termination sh))) := by
  cases c with
  | none => exact .ok _
  | some c => exact c.complains_build.mono fun h => ⟨c, rfl, h⟩

end TerminationConfig

/-! ## Phases -/

variable {S V : Type} {sh : Shape} {domain : Domain S V}

/-- The limits of a phase. -/
def PhaseConfig.termination : PhaseConfig → Option TerminationConfig
  | construction c => c.termination
  | localSearch c => c.termination

theorem Placer.hardestFirst_error {d : Definition S V} {e : SolverError}
    (h : Placer.hardestFirst d = .error e) : ∃ message, e = .configuration message := by
  unfold Placer.hardestFirst at h
  split at h
  · cases h
    exact ⟨_, rfl⟩
  · cases h

theorem ConstructionConfig.complains_build (c : ConstructionConfig) :
    Complains (∃ limits ∈ c.termination, ¬limits.Fits)
      (c.build domain : Except Failure (Construction S V sh)) := by
  refine .bind (.reported fun e => Domain.select_error) fun ds => ?_
  have hlimits : Complains (∃ limits ∈ c.termination, ¬limits.Fits)
      (TerminationConfig.buildOption c.termination : Except Failure (Option (Termination sh))) :=
    TerminationConfig.complains_buildOption c.termination
  cases c.order with
  | firstFit => exact .bind (.ok _) fun p => .bind hlimits fun t => .ok _
  | firstFitDecreasing =>
    refine .bind (.reported fun e h => ?_) fun p => .bind hlimits fun t => .ok _
    rcases Checked.bind_eq_error h with h | ⟨placers, -, h⟩
    · obtain ⟨d, -, hd⟩ := Checked.mapM_eq_error h
      exact Placer.hardestFirst_error hd
    · cases h

theorem MoveConfig.everyChange_error {e : SolverError}
    (h : MoveConfig.everyChange domain = .error e) : ∃ message, e = .configuration message := by
  rcases Checked.bind_eq_error h with h | ⟨ds, -, h⟩
  · exact Domain.select_error h
  · cases h

theorem LocalSearchConfig.complains_build (threads : Nat) (c : LocalSearchConfig) :
    Complains (∃ limits ∈ c.termination, ¬limits.Fits)
      (c.build domain threads : Except Failure (LocalSearch S V sh)) := by
  refine .bind (.reported fun e h => ?_) fun tree =>
    .bind (TerminationConfig.complains_buildOption _) fun t => .ok _
  split at h
  · exact MoveConfig.build_error h
  · exact MoveConfig.everyChange_error h

theorem PhaseConfig.complains_build (threads : Nat) (c : PhaseConfig) :
    Complains (∃ limits ∈ c.termination, ¬limits.Fits)
      (c.build domain threads : Except Failure (SearchPhase S V sh)) := by
  have hchecked (p : SearchPhase S V sh) : Complains (∃ limits ∈ c.termination, ¬limits.Fits)
      (p.validate.mapError Failure.error >>= fun _ => pure p) :=
    .bind (.reported fun e => SearchPhase.validate_configuration) fun _ => .ok _
  cases c with
  | construction c => exact .bind (.map c.complains_build _) hchecked
  | localSearch c => exact .bind (.map (c.complains_build threads) _) hchecked

/-! ## Solvers -/

namespace SolverConfig

/-- The limits of the whole solve and those of the phases. -/
def terminations (c : SolverConfig) : List TerminationConfig :=
  c.termination.toList ++ c.phases.filterMap PhaseConfig.termination

/-- Phases that stand in for missing ones have no limits. -/
theorem mem_terminations {c : SolverConfig} {p : PhaseConfig} {limits : TerminationConfig}
    (hp : p ∈ if c.phases.isEmpty then defaultPhases else c.phases)
    (hlimits : limits ∈ p.termination) : limits ∈ c.terminations := by
  split at hp
  · simp only [defaultPhases, List.mem_cons, List.not_mem_nil, or_false] at hp
    rcases hp with rfl | rfl <;> cases hlimits
  · exact List.mem_append_right _ (List.mem_filterMap.2 ⟨p, hp, hlimits⟩)

theorem complains_build (available : Nat) (c : SolverConfig) :
    Complains (∃ limits ∈ c.terminations, ¬limits.Fits)
      (c.build domain available : Except Failure (Solver (SearchPhase S V sh) S sh)) := by
  unfold build
  cases c.violation? with
  | some v => exact fun failure h => by cases h; exact .inl ⟨_, rfl⟩
  | none =>
    refine .bind ?_ fun t => .bind (.mapM fun p hp => ?_) fun ps => .ok _
    · refine (TerminationConfig.complains_buildOption c.termination).mono ?_
      rintro ⟨limits, hmem, hfits⟩
      exact ⟨limits, List.mem_append_left _ (Option.mem_toList.2 hmem), hfits⟩
    · refine (p.complains_build _).mono ?_
      rintro ⟨limits, hmem, hfits⟩
      exact ⟨limits, mem_terminations hp hmem, hfits⟩

theorem build_overflows {c : SolverConfig} {limits : TerminationConfig} (hvalid : c.violation? = none)
    (hlimits : limits ∈ c.termination) (hfits : ¬limits.Fits) (available : Nat) :
    (c.build domain available : Except Failure (Solver (SearchPhase S V sh) S sh)) =
      .error (.fault .overflow) := by
  unfold build
  rw [hvalid, Option.mem_def.1 hlimits]
  show TerminationConfig.build limits >>= _ = _
  rw [TerminationConfig.build_of_not_fits hfits]
  rfl

/-- **Building solvers.**  Where each time limit fits, a solver is built or an error of the
configuration is reported. The only other way to fail is an overflow, for a time limit that does not
fit; and a valid configuration whose limit of the whole solve does not fit always fails in that
way. -/
theorem build_reports (domain : Domain S V) (available : Nat) (c : SolverConfig) :
    let built : Except Failure (Solver (SearchPhase S V sh) S sh) := c.build domain available
    ((∀ limits ∈ c.terminations, limits.Fits) →
        (∃ s, built = .ok s) ∨ ∃ message, built = .error (.error (.configuration message))) ∧
      (∀ failure, built = .error failure →
        (∃ message, failure = .error (.configuration message)) ∨
          failure = .fault .overflow ∧ ∃ limits ∈ c.terminations, ¬limits.Fits) ∧
      (c.violation? = none → (∃ limits ∈ c.termination, ¬limits.Fits) →
        built = .error (.fault .overflow)) := by
  intro built
  have hcomplains : Complains (∃ limits ∈ c.terminations, ¬limits.Fits) built :=
    c.complains_build available
  refine ⟨fun hfits => ?_, hcomplains, ?_⟩
  · cases hbuilt : built with
    | ok s => exact .inl ⟨s, rfl⟩
    | error failure =>
      rcases hcomplains _ hbuilt with ⟨message, rfl⟩ | ⟨-, limits, hmem, hnot⟩
      · exact .inr ⟨message, rfl⟩
      · exact absurd (hfits limits hmem) hnot
  · rintro hvalid ⟨limits, hmem, hnot⟩
    exact build_overflows hvalid hmem hnot available

end SolverConfig

/-! ## A time limit of half a billion years -/

namespace Row

/-- The seconds are a 64-bit number, their milliseconds are not. -/
def patient : SolverConfig :=
  { termination := some { seconds := some 18446744073709552, steps := some 1 } }

/-- A valid configuration that neither builds a solver nor reports an error. -/
theorem patient_overflows :
    patient.violation? = none ∧
      (patient.build twoVariables 1 :
        Except Failure (Solver (SearchPhase Row Nat .simple) Row .simple)) =
          .error (.fault .overflow) :=
  ⟨rfl, SolverConfig.build_overflows rfl rfl (by decide) 1⟩

end Row

end PlanSearch
