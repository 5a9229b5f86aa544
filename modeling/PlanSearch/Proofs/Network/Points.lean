import PlanSearch.Proofs.Network.Matches
import PlanSearch.Proofs.Network.Outcome

/-!
# Networks that count points

Where every match is worth a single point and there are no groups, all numbers that a session forms
are counts of matches. If there are not too many different matches at any time, whatever the session
has been told, it never strains, and so it always settles.

    Limited … bound → n.constraints.length * bound + 1 < 2 ^ 63 → Tracks … [] s →
      ¬ s.Strained now                                                    (Tracks.not_strained)
-/

namespace PlanSearch

open Checked (Fits)

variable {S : Type} {sh : Shape} {before now : S}

/-- Nothing is grouped, and a match is worth at most one point on each level. -/
def Stage.CountsPoints : Stage S sh → Prop
  | .group _ _ _ => False
  | .scorer weight matchWeight _ =>
    (∀ plan t, matchWeight plan t = .ok 1) ∧ ∀ l, (weight.level l).natAbs ≤ 1
  | _ => True

theorem natAbs_sum_le {α : Type} {f : α → Int} {bound : Nat} {xs : List α}
    (h : ∀ x ∈ xs, (f x).natAbs ≤ bound) : (xs.map f).sum.natAbs ≤ xs.length * bound := by
  induction xs with
  | nil => exact Nat.zero_le _
  | cons x xs ih =>
    obtain ⟨hx, hxs⟩ := List.forall_mem_cons.1 h
    have htail := ih hxs
    rw [List.map_cons, List.sum_cons, List.length_cons, Nat.succ_mul]
    omega

/-! ## One scorer -/

namespace ScorerMemory

variable {weight score : Score sh} {matchWeight : S → Tuple → Checked Int64} {m : ScorerMemory sh}
  {x : Feed} {i : TupleId}

/-- Whatever was entered is worth one point. -/
theorem Tracks.level_of_matched (h : m.Tracks (matchScore weight matchWeight) before now x)
    (hw : ∀ plan t, matchWeight plan t = .ok 1) {a : Score sh} (hi : m.matched[i]? = some a)
    (l : Nat) : a.level l = weight.level l := by
  obtain ⟨t, ht⟩ := h.recalls.live_isSome hi
  obtain ⟨b, hb, hanswers⟩ := h.recalls.present i t ht
  obtain rfl : a = b := Option.some.inj (hi.symm.trans hb)
  have hscaled : weight.scaled 1 = .ok a := by
    rcases hanswers with hnow | ⟨-, hbefore⟩
    · unfold matchScore at hnow
      rw [hw] at hnow
      exact hnow
    · unfold matchScore at hbefore
      rw [hw] at hbefore
      exact hbefore
  rw [Score.level_scaled hscaled]
  exact Int.mul_one _

theorem Tracks.natAbs_total_le (h : m.Tracks (matchScore weight matchWeight) before now x)
    (hw : ∀ plan t, matchWeight plan t = .ok 1) (hpoint : ∀ l, (weight.level l).natAbs ≤ 1)
    (l : Nat) : (m.total.level l).natAbs ≤ m.matched.size := by
  rw [h.total, ← Std.HashMap.length_toList, ← Nat.mul_one m.matched.toList.length]
  refine natAbs_sum_le fun p hp => ?_
  obtain ⟨i, a⟩ := p
  show (a.level l).natAbs ≤ 1
  rw [h.level_of_matched hw (Std.HashMap.mem_toList_iff_getElem?_eq_some.1 hp) l]
  exact hpoint l

/-- A match that comes, stays or goes moves no sum by more than one point. -/
theorem Tracks.not_strains {bound : Nat} {next : Nat → Int}
    (h : m.Tracks (matchScore weight matchWeight) before now x)
    (hw : ∀ plan t, matchWeight plan t = .ok 1) (hpoint : ∀ l, (weight.level l).natAbs ≤ 1)
    (hnext : ∀ l, next l = weight.level l ∨ next l = 0)
    (htotal : ∀ l, (m.total.level l).natAbs ≤ bound) (hscore : ∀ l, (score.level l).natAbs ≤ bound)
    (hbound : bound + 1 < 2 ^ 63) : ¬ m.Strains score i next := by
  have hprevious : ∀ l, (m.matched.getD i .zero).level l = weight.level l ∨
      (m.matched.getD i .zero).level l = 0 := by
    intro l
    rw [Std.HashMap.getD_eq_getD_getElem?]
    cases hi : m.matched[i]? with
    | none => exact .inr (Score.level_zero l)
    | some a => exact .inl (h.level_of_matched hw hi l)
  rintro ⟨l, hl⟩
  have hweight := hpoint l
  have hrise : (m.rise i next l).natAbs ≤ 1 := by
    unfold rise
    rcases hnext l with hn | hn <;> rcases hprevious l with hp | hp <;> omega
  have hlevel : (next l).natAbs ≤ 1 := by
    rcases hnext l with hn | hn <;> omega
  have hT := htotal l
  have hS := hscore l
  have hfits : ∀ y : Int, y.natAbs ≤ bound + 1 → Fits y := fun y hy => by
    constructor <;> omega
  rcases hl with hl | hl | hl | hl
  · exact hl (hfits _ (by omega))
  · exact hl (hfits _ (by omega))
  · exact hl (hfits _ (by omega))
  · exact hl (hfits _ (by omega))

end ScorerMemory

/-! ## Sessions -/

namespace Session

variable {n : Network S sh} {nodes : Array (Node S sh)} {held known : Fact → Prop} {roll : Roll}
  {input : Nat → Side → Feed} {output : Nat → Feed} {s : Session S sh} {bound : Nat}

/-- No scorer can have more than `bound` different matches of facts that are held. -/
def Limited (nodes : Array (Node S sh)) (held : Fact → Prop) (bound : Nat) : Prop :=
  ∀ i stage, stage? nodes i = some stage → stage.isScorer → ∀ ids : List TupleId, ids.Nodup →
    (∀ id ∈ ids, ∃ t : Tuple, t.id = id ∧ t.Over (inputLayout nodes i .left) held) →
      ids.length ≤ bound

section

variable (h : Tracks n nodes before now held known roll input output [] s) (hn : n.Carries nodes)
  (hpoints : ∀ i stage, stage? nodes i = some stage → stage.CountsPoints)
  (hlimit : Limited nodes held bound)

include h hn hpoints hlimit

/-- A scorer that counts points has a total of at most as many as there can be matches. -/
theorem Tracks.natAbs_total_le {i : Nat} {weight : Score sh}
    {matchWeight : S → Tuple → Checked Int64} {watched : Bool} {m : ScorerMemory sh}
    (hs : s.stations[i]? = some (.scorer weight matchWeight watched m)) (l : Nat) :
    (m.total.level l).natAbs ≤ bound := by
  have hstage : stage? nodes i = some (.scorer weight matchWeight watched) := by
    rw [← h.stage, hs]
    rfl
  have hlive := hn.live_of_scorer hstage rfl
  have htracks : m.Tracks (matchScore weight matchWeight) before now (input i .left) :=
    (h.station i _ hs hlive).1
  obtain ⟨hw, hpoint⟩ := hpoints i _ hstage
  refine Nat.le_trans (htracks.natAbs_total_le hw hpoint l) ?_
  rw [← Std.HashMap.length_keys]
  refine hlimit i _ hstage rfl _ Std.HashMap.nodup_keys fun id hid => ?_
  rw [Std.HashMap.mem_keys, Std.HashMap.mem_iff_isSome_getElem?, Option.isSome_iff_exists] at hid
  obtain ⟨a, ha⟩ := hid
  obtain ⟨t, ht⟩ := htracks.recalls.live_isSome ha
  exact ⟨t, h.inputOver i _ .left hstage (List.mem_singleton.2 rfl) hlive id t ht⟩

theorem Tracks.natAbs_totalAt_le {c : Constraint sh} (hc : c ∈ n.constraints) (l : Nat) :
    ((s.totalAt c.scorer).level l).natAbs ≤ bound := by
  obtain ⟨signed, matchWeight, watched, -, hstage⟩ := hn.weight c hc
  rw [← h.stage] at hstage
  obtain ⟨station, hs, hst⟩ := Option.map_eq_some_iff.1 hstage
  unfold totalAt
  rw [hs]
  cases station with
  | scorer weight matchWeight' watched' m => exact h.natAbs_total_le hn hpoints hlimit hs l
  | _ => cases hst

theorem Tracks.natAbs_score_le (l : Nat) :
    (s.score.level l).natAbs ≤ n.constraints.length * bound := by
  rw [h.score]
  exact natAbs_sum_le fun c hc => h.natAbs_totalAt_le hn hpoints hlimit hc l

/-- A session that counts points does not strain as long as there are not too many. -/
theorem Tracks.not_strained (hbound : n.constraints.length * bound + 1 < 2 ^ 63) :
    ¬ s.Strained now := by
  rintro ⟨p, rest, station, -, hs, hstrains⟩
  have hstage : stage? nodes p.target = some station.stage := by
    rw [← h.stage, hs]
    rfl
  have hcounts := hpoints _ _ hstage
  cases station with
  | scorer weight matchWeight watched m =>
    obtain ⟨hw, hpoint⟩ := hcounts
    have hmember : p.target ∈ n.constraints.map (·.scorer) := (hn.scorer _).2 ⟨_, hstage, rfl⟩
    have hle : bound ≤ n.constraints.length * bound := by
      obtain ⟨c, hc, -⟩ := List.mem_map.1 hmember
      exact Nat.le_mul_of_pos_left _ (List.length_pos_of_mem hc)
    have htracks : m.Tracks (matchScore weight matchWeight) before now (input p.target .left) :=
      (h.station _ _ hs (hn.live_of_scorer hstage rfl)).1
    have hnot : ∀ {i : TupleId} {next : Nat → Int},
        (∀ l, next l = weight.level l ∨ next l = 0) → ¬ m.Strains s.score i next := fun hnext =>
      htracks.not_strains hw hpoint hnext
        (fun l => Nat.le_trans (h.natAbs_total_le hn hpoints hlimit hs l) hle)
        (h.natAbs_score_le hn hpoints hlimit) hbound
    have hone : ∀ {t : Tuple} {w : Int64}, matchWeight now t = .ok w →
        ∀ l, weight.level l * w.toInt = weight.level l := by
      intro t w hmatch l
      obtain rfl : w = 1 := Except.ok.inj (hmatch.symm.trans (hw now t))
      exact Int.mul_one _
    unfold Station.Strains at hstrains
    cases hd : p.delta with
    | insert t =>
      rw [hd] at hstrains
      obtain ⟨w, hmatch, hstrains⟩ := hstrains
      exact hnot (fun l => .inl (hone hmatch l)) hstrains
    | update t =>
      rw [hd] at hstrains
      obtain ⟨w, hmatch, hstrains⟩ := hstrains
      exact hnot (fun l => .inl (hone hmatch l)) hstrains
    | retract id =>
      rw [hd] at hstrains
      exact hnot (fun _ => .inr rfl) hstrains
  | group key value c m => exact hcounts
  | _ => exact hstrains

end

end Session

end PlanSearch
