import Mathlib.Data.Finset.Basic
import PlanSearch.Network.Session
import PlanSearch.Proofs.Data.HashMap
import PlanSearch.Proofs.Network.Feed
import PlanSearch.Proofs.Score.Level

/-!
# Sources, filters and scorers as views

For each kind of memory, `Tracks` says what it has to remember of the feed that it hears, and what
its own output amounts to. Each operation keeps it: whatever the problem's functions answer, the
output is the view of the input under the latest answers.

The output also names every live tuple whose input was named, so that whoever listens asks again
about everything that may have changed.
-/

namespace PlanSearch

open Std (HashMap HashSet)

variable {S : Type} {sh : Shape} {before now : S} {origin : Nat} {input output : Feed}

/-! ## Sources -/

/-- What a session is told about a fact. -/
inductive Report where
  /-- The fact is present from now on. -/
  | insert (f : Fact)
  /-- The contents of the fact changed. -/
  | update (f : Fact)
  /-- The fact is gone. -/
  | retract (f : Fact)
  deriving DecidableEq

namespace Report

def fact : Report → Fact
  | insert f | update f | retract f => f

/-- The report as it is queued for the source `origin`. -/
def delta (origin : Nat) : Report → Delta
  | insert f => .insert (Tuple.ofFact f origin)
  | update f => .update (Tuple.ofFact f origin)
  | retract f => .retract [.fact f]

/-- Whether `g` is present after the report, given whether it was before. -/
def keeps (r : Report) (g : Fact) (present : Prop) : Prop :=
  match r with
  | insert f => g = f ∨ present
  | update _ => present
  | retract f => g ≠ f ∧ present

end Report

namespace SourceMemory

/-- The output consists of the facts that are present. -/
structure Tracks (family origin : Nat) (m : SourceMemory) (output : Feed) : Prop where
  family : ∀ f, f ∈ m → f.family = family
  live : ∀ id t, output.live id = some t ↔ ∃ f, f ∈ m ∧ id = [.fact f] ∧ t = Tuple.ofFact f origin

variable {family : Nat} {m : SourceMemory}

theorem Tracks.hear_put (h : Tracks family origin m output) {f : Fact} (hf : f.family = family)
    (m' : SourceMemory) (hm : ∀ g, g ∈ m' ↔ g = f ∨ g ∈ m) :
    Tracks family origin m' (output.hear (.insert (Tuple.ofFact f origin))) where
  family g hg := ((hm g).1 hg).elim (fun e => e ▸ hf) (h.family g)
  live id t := by
    by_cases hi : id = [.fact f]
    · subst hi
      rw [show [.fact f] = (Tuple.ofFact f origin).id from rfl, Feed.live_hear_insert]
      constructor
      · rintro ⟨⟩
        exact ⟨f, (hm f).2 (.inl rfl), rfl, rfl⟩
      · rintro ⟨g, -, hg, rfl⟩
        cases hg
        rfl
    · rw [Feed.live_hear_of_ne hi, h.live]
      constructor
      · rintro ⟨g, hg, rfl, rfl⟩
        exact ⟨g, (hm g).2 (.inr hg), rfl, rfl⟩
      · rintro ⟨g, hg, rfl, rfl⟩
        rcases (hm g).1 hg with rfl | hg
        · exact absurd rfl hi
        · exact ⟨g, hg, rfl, rfl⟩

theorem Tracks.hear_retract (h : Tracks family origin m output) (f : Fact) :
    Tracks family origin (HashSet.erase m f) (output.hear (.retract [.fact f])) where
  family g hg := h.family g (by simpa using (Std.HashSet.mem_erase.1 hg).2)
  live id t := by
    by_cases hi : id = [.fact f]
    · subst hi
      rw [Feed.live_hear_retract]
      constructor
      · rintro ⟨⟩
      · rintro ⟨g, hg, e, -⟩
        cases e
        simp at hg
    · rw [Feed.live_hear_of_ne hi, h.live]
      constructor
      · rintro ⟨g, hg, rfl, rfl⟩
        refine ⟨g, Std.HashSet.mem_erase.2 ⟨?_, hg⟩, rfl, rfl⟩
        simp only [beq_eq_false_iff_ne]
        rintro rfl
        exact hi rfl
      · rintro ⟨g, hg, rfl, rfl⟩
        exact ⟨g, (Std.HashSet.mem_erase.1 hg).2, rfl, rfl⟩

/-- A source follows the reports, and names the fact of a report if it is present afterwards. -/
theorem Tracks.receive (h : Tracks family origin m output) (r : Report)
    (hr : r.fact.family = family) :
    let out := (m.receive origin (r.delta origin)).2
    let m' := (m.receive origin (r.delta origin)).1
    Tracks family origin m' (output.hearAll out) ∧ (∀ g, g ∈ m' ↔ r.keeps g (g ∈ m)) ∧
      (r.fact ∈ m' → [.fact r.fact] ∈ (output.hearAll out).touched) ∧
      ∀ d ∈ out, ∀ t, d.tuple? = some t → t = Tuple.ofFact r.fact origin := by
  cases r with
  | insert f =>
    by_cases hf : f ∈ m
    · have hm : ∀ g, g ∈ m ↔ g = f ∨ g ∈ m := fun g => ⟨.inr, fun e => e.elim (· ▸ hf) id⟩
      have hrec : m.receive origin (.insert (Tuple.ofFact f origin)) =
          (m, [.update (Tuple.ofFact f origin)]) := if_pos hf
      simp only [Report.delta, hrec]
      refine ⟨h.hear_put hr m hm, hm, fun _ => Feed.mem_touched_hear.2 (.inl rfl), ?_⟩
      simp [Delta.tuple?, Report.fact]
    · have hm : ∀ g, g ∈ HashSet.insert m f ↔ g = f ∨ g ∈ m := fun g => by
        rw [Std.HashSet.mem_insert, beq_iff_eq, eq_comm]
      have hrec : m.receive origin (.insert (Tuple.ofFact f origin)) =
          (HashSet.insert m f, [.insert (Tuple.ofFact f origin)]) := if_neg hf
      simp only [Report.delta, hrec]
      refine ⟨h.hear_put hr _ hm, hm, fun _ => Feed.mem_touched_hear.2 (.inl rfl), ?_⟩
      simp [Delta.tuple?, Report.fact]
  | update f =>
    by_cases hf : f ∈ m
    · have hm : ∀ g, g ∈ m ↔ g = f ∨ g ∈ m := fun g => ⟨.inr, fun e => e.elim (· ▸ hf) id⟩
      have hrec : m.receive origin (.update (Tuple.ofFact f origin)) =
          (m, [.update (Tuple.ofFact f origin)]) := congrArg (Prod.mk m) (if_pos hf)
      simp only [Report.delta, hrec]
      refine ⟨h.hear_put hr m hm, fun _ => .rfl, fun _ => Feed.mem_touched_hear.2 (.inl rfl), ?_⟩
      simp [Delta.tuple?, Report.fact]
    · have hrec : m.receive origin (.update (Tuple.ofFact f origin)) = (m, []) :=
        congrArg (Prod.mk m) (if_neg hf)
      simp only [Report.delta, hrec]
      exact ⟨h, fun _ => .rfl, fun hf' => absurd hf' hf, fun d hd => by cases hd⟩
  | retract f =>
    have hm : ∀ g, g ∈ HashSet.erase m f ↔ g ≠ f ∧ g ∈ m := fun g => by
      rw [Std.HashSet.mem_erase, beq_eq_false_iff_ne, ne_comm]
    by_cases hf : f ∈ m
    · have hrec : m.receive origin (.retract [.fact f]) =
          (HashSet.erase m f, [.retract [.fact f]]) := if_pos hf
      simp only [Report.delta, hrec]
      refine ⟨h.hear_retract f, hm, fun hf' => absurd rfl ((hm f).1 hf').1, ?_⟩
      simp [Delta.tuple?]
    · have hrec : m.receive origin (.retract [.fact f]) = (m, []) := if_neg hf
      simp only [Report.delta, hrec]
      refine ⟨h, fun g => ⟨fun hg => ⟨fun e => hf (e ▸ hg), hg⟩, fun hg => hg.2⟩,
        fun hf' => absurd hf' hf, fun d hd => by cases hd⟩

end SourceMemory

/-! ## Filters -/

namespace FilterMemory

/-- The output consists of the tuples whose latest verdict is true. -/
structure Tracks (test : S → Tuple → Checked Bool) (before now : S) (origin : Nat)
    (m : FilterMemory) (input output : Feed) : Prop where
  recalls : Recalls test before now (fun i => m[i]?) input
  live : ∀ i, output.live i =
    if m[i]? = some true then (input.live i).map (·.withOrigin origin) else none
  touched : ∀ i, m[i]? = some true → i ∈ input.touched → i ∈ output.touched

variable {test : S → Tuple → Checked Bool} {m : FilterMemory} {t : Tuple} {b : Bool}

/-- Within the memory and the output only what concerns `i` changed. -/
theorem Tracks.live_of_ne (h : Tracks test before now origin m input output) {m' : FilterMemory}
    {d : Delta} {out : List Delta} (hm : ∀ i, i ≠ d.id → m'[i]? = m[i]?)
    (hout : ∀ e ∈ out, e.id = d.id) {i : TupleId} (hi : i ≠ d.id) :
    (output.hearAll out).live i =
      if m'[i]? = some true then ((input.hear d).live i).map (·.withOrigin origin) else none := by
  rw [Feed.live_hearAll_of_forall_ne fun e he hid => hi (hid.symm.trans (hout e he)),
    Feed.live_hear_of_ne hi, hm i hi, h.live]

theorem id_of_mem_judge {e : Delta} (he : e ∈ (m.judge origin t b).2) : e.id = t.id := by
  simp only [judge] at he
  split at he <;> simp_all [Delta.id, Tuple.withOrigin]

theorem Tracks.judge (h : Tracks test before now origin m input output) (ht : test now t = .ok b) :
    Tracks test before now origin (m.judge origin t b).1 (input.hear (.insert t))
      (output.hearAll (m.judge origin t b).2) := by
  have hm : ∀ i, (m.judge origin t b).1[i]? = if i = t.id then some b else m[i]? :=
    fun i => getElem?_insert_ite m t.id i b
  refine ⟨h.recalls.put ht hm, fun i => ?_, fun i hi hin => ?_⟩
  · by_cases hi : i = t.id
    · subst hi
      rw [hm, if_pos rfl, Feed.live_hear_insert]
      have hbefore := h.live t.id
      simp only [FilterMemory.judge]
      cases b <;> cases hv : m[t.id]? with
      | none => simp_all [Feed.hear, Delta.tuple?, Delta.id, Tuple.withOrigin]
      | some v => cases v <;> simp_all [Feed.hear, Delta.tuple?, Delta.id, Tuple.withOrigin]
    · exact h.live_of_ne (d := .insert t) (fun i hi => (hm i).trans (if_neg hi))
        (fun e he => id_of_mem_judge he) hi
  · rw [Feed.mem_touched_hearAll]
    rw [hm] at hi
    by_cases hit : i = t.id
    · subst hit
      rw [if_pos rfl] at hi
      cases hi
      refine .inr ?_
      simp only [FilterMemory.judge]
      split <;> simp_all [Delta.id, Tuple.withOrigin]
    · rw [if_neg hit] at hi
      exact .inl (h.touched i hi (Feed.touched_of_hear hin hit))

theorem Tracks.retract (h : Tracks test before now origin m input output) (j : TupleId) :
    Tracks test before now origin (m.retract j).1 (input.hear (.retract j))
      (output.hearAll (m.retract j).2) := by
  have hm : ∀ i, (m.retract j).1[i]? = if i = j then none else m[i]? :=
    fun i => getElem?_erase_ite m j i
  have hout : ∀ e ∈ (m.retract j).2, e.id = j := fun e he => by
    simp only [FilterMemory.retract] at he
    split at he <;> simp_all [Delta.id]
  refine ⟨h.recalls.drop j hm, fun i => ?_, fun i hi hin => ?_⟩
  · by_cases hi : i = j
    · subst hi
      rw [hm, if_pos rfl, if_neg (by simp)]
      have hbefore := h.live i
      simp only [FilterMemory.retract]
      split
      · exact Feed.live_hear_retract ..
      · next hv => exact hbefore.trans (if_neg hv)
    · exact h.live_of_ne (d := .retract j) (fun i hi => (hm i).trans (if_neg hi)) hout hi
  · rw [hm] at hi
    have hij : i ≠ j := fun e => by rw [if_pos e] at hi; cases hi
    rw [if_neg hij] at hi
    rw [Feed.mem_touched_hearAll]
    exact .inl (h.touched i hi (Feed.touched_of_hear hin hij))

end FilterMemory

/-! ## Scorers -/

/-- The score of the match `t`. -/
def matchScore (weight : Score sh) (matchWeight : S → Tuple → Checked Int64) (plan : S)
    (t : Tuple) : Checked (Score sh) := do
  weight.scaled (← matchWeight plan t)

namespace ScorerMemory

/-- The total is the sum of the latest scores of the live matches. -/
structure Tracks (score : S → Tuple → Checked (Score sh)) (before now : S) (m : ScorerMemory sh)
    (input : Feed) : Prop where
  recalls : Recalls score before now (fun i => m.matched[i]?) input
  total : ∀ l, m.total.level l = (m.matched.toList.map (·.2.level l)).sum

variable {score : S → Tuple → Checked (Score sh)} {m m' : ScorerMemory sh} {t : Tuple}
  {a d : Score sh}

theorem shift_eq_ok {change : Checked (Score sh)} (e : shift change m = .ok d m') :
    change = .ok d ∧ m'.matched = m.matched ∧ ∀ l, m'.total.level l = m.total.level l + d.level l := by
  unfold shift at e
  split at e
  · cases e
  · next c hc =>
    split at e
    · cases e
    · next total ht =>
      cases e
      exact ⟨rfl, rfl, fun l => Score.level_add ht l⟩

/-- The sum over the matches with one match set aside. -/
theorem sum_matched (m : ScorerMemory sh) (i : TupleId) (l : Nat) :
    (m.matched.toList.map (·.2.level l)).sum =
      (m.matched.getD i .zero).level l + ((m.matched.erase i).toList.map (·.2.level l)).sum := by
  cases hi : m.matched[i]? with
  | none =>
    rw [HashMap.getD_eq_getD_getElem?, hi, ((toList_erase_of_none hi).map _).sum_eq]
    simp [Score.level_zero]
  | some b =>
    rw [HashMap.getD_eq_getD_getElem?, hi, ((toList_eq_cons_erase hi).map _).sum_eq]
    simp

theorem sum_insert (m : ScorerMemory sh) (i : TupleId) (a : Score sh) (l : Nat) :
    ((m.matched.insert i a).toList.map (·.2.level l)).sum =
      a.level l + ((m.matched.erase i).toList.map (·.2.level l)).sum := by
  have hm : (m.matched.insert i a)[i]? = some a := by simp
  rw [((toList_eq_cons_erase hm).map _).sum_eq]
  have he : ((m.matched.insert i a).erase i).toList.Perm (m.matched.erase i).toList := by
    rw [List.perm_ext_iff_of_nodup (nodup_toList _) (nodup_toList _)]
    rintro ⟨j, b⟩
    simp only [HashMap.mem_toList_iff_getElem?_eq_some, HashMap.getElem?_erase,
      HashMap.getElem?_insert]
    split <;> simp_all
  rw [List.map_cons, List.sum_cons, (he.map _).sum_eq]

/-- The total is the sum of the scores of the matches. -/
def Sums (m : ScorerMemory sh) : Prop :=
  ∀ l, m.total.level l = (m.matched.toList.map (·.2.level l)).sum

/-- The total moves by as much as the score of the match does. -/
theorem Sums.place {i : TupleId} (h : m.Sums) (e : place i a m = .ok d m') :
    m'.Sums ∧ m'.matched = m.matched.insert i a ∧ ∀ l, m'.total.level l = m.total.level l + d.level l := by
  obtain ⟨hd, hm, htotal⟩ := shift_eq_ok e
  refine ⟨fun l => ?_, hm, htotal⟩
  rw [htotal, hm, sum_insert, h, sum_matched m i, Score.level_sub hd]
  omega

theorem Sums.retract {j : TupleId} (h : m.Sums) (e : retract j m = .ok d m') :
    m'.Sums ∧ (∀ i, m'.matched[i]? = if i = j then none else m.matched[i]?) ∧
      ∀ l, m'.total.level l = m.total.level l + d.level l := by
  unfold ScorerMemory.retract at e
  split at e
  · next hj =>
    obtain ⟨hd, hm, htotal⟩ := shift_eq_ok e
    cases hd
    refine ⟨fun l => ?_, fun i => ?_, htotal⟩
    · rw [htotal, hm, h, Score.level_zero]
      omega
    · rw [hm]
      split
      · next hij => rw [hij, hj]
      · rfl
  · next old hj =>
    obtain ⟨hd, hm, htotal⟩ := shift_eq_ok e
    refine ⟨fun l => ?_, fun i => ?_, htotal⟩
    · have hold : m.matched.getD j .zero = old := by
        rw [HashMap.getD_eq_getD_getElem?, hj]
        rfl
      rw [htotal, hm, h, sum_matched m j, hold, Score.level_neg hd]
      dsimp only
      omega
    · rw [hm, getElem?_erase_ite]

theorem Tracks.place (h : Tracks score before now m input) (ha : score now t = .ok a)
    (e : place t.id a m = .ok d m') :
    Tracks score before now m' (input.hear (.insert t)) ∧
      ∀ l, m'.total.level l = m.total.level l + d.level l := by
  obtain ⟨hsums, hm, htotal⟩ := Sums.place h.total e
  refine ⟨⟨h.recalls.put ha fun i => ?_, hsums⟩, htotal⟩
  rw [hm, getElem?_insert_ite]

theorem Tracks.retract (h : Tracks score before now m input) {j : TupleId}
    (e : retract j m = .ok d m') :
    Tracks score before now m' (input.hear (.retract j)) ∧
      ∀ l, m'.total.level l = m.total.level l + d.level l := by
  obtain ⟨hsums, hm, htotal⟩ := Sums.retract h.total e
  exact ⟨⟨h.recalls.drop j hm, hsums⟩, htotal⟩

theorem shift_error {change : Checked (Score sh)} {f : Fault}
    (hc : ∀ g, change = .error g → g = .overflow) (e : shift change m = .error f m') :
    f = .overflow := by
  unfold shift at e
  cases change with
  | error g => cases e; exact hc _ rfl
  | ok d =>
    dsimp only at e
    split at e
    · next hg => cases e; exact Score.ofExact_error hg
    · cases e

end ScorerMemory

end PlanSearch
