import PlanSearch.Proofs.Neighbourhood.Asking
import PlanSearch.Proofs.Neighbourhood.Ending

/-!
# Random unions interleave their children

Between two restarts a random union asks its children for one move after the other. Where all leaves
below visit their candidates in the order in which these are listed, each child answers its moves in
that order and then that there is none, whatever the weights and the random numbers are.

    events that start nothing over leave alone what is left          (left_hear, Steady.hear)
    all draws between two restarts go on with the children's answers (Drawn.interleaves)
    the union comes to nothing when every child with a weight did    (union_interleaves)
-/

namespace PlanSearch

variable {S V : Type}

namespace Tree

variable {sh : Shape} [Plan S sh] {plan : S}

/-! ## Events that start nothing over -/

mutual

theorem left_hear (q : S) {e : Event} (he : e.restarts = false) : (t : Tree S V) →
    (x : State t) → t.left plan (t.hear q e x) = t.left plan x
  | change d _, (w : ChangeWalk V) => by
    show (w.hear e).left plan d = w.left plan d
    unfold ChangeWalk.hear EntityWalk.hear ValueWalk.hear
    simp only [he]
    rfl
  | swap x _, (w : SwapWalk) => by
    show (w.hear e).left plan x = w.left plan x
    unfold SwapWalk.hear SwapWalk.left
    simp only [he, Bool.or_false]
  | union children random weights, (u, x) => by
    show (u.hear children.length random weights q e).left children.length
      (fun i => leftAt plan children i (hearAll q e children x)) = _
    rw [u.hear_eq_self he, funext fun i => leftAt_hearAll q he children i x]
    rfl
  | product children random, (w, x) => by
    show (if e.restarts then {} else w : ProductWalk S V).left (movesOf plan children)
      (fun i => leftAt plan children i (hearAll q e children x)) = _
    rw [he, funext fun i => leftAt_hearAll q he children i x]
    rfl
  | filter child keep, x => congrArg (List.filter (keep plan)) (left_hear q he child x)

theorem leftAt_hearAll (q : S) {e : Event} (he : e.restarts = false) : (ts : List (Tree S V)) →
    (i : Nat) → (x : States ts) → leftAt plan ts i (hearAll q e ts x) = leftAt plan ts i x
  | [], _, _ => rfl
  | t :: _, 0, (x, _) => left_hear q he t x
  | _ :: ts, i + 1, (_, xs) => leftAt_hearAll q he ts i xs

end

mutual

theorem Steady.hear (q : S) {e : Event} (he : e.restarts = false) : (t : Tree S V) →
    (x : State t) → t.Steady plan x → t.Steady plan (t.hear q e x)
  | change d order, (w : ChangeWalk V), h => by
    show (w.hear e).Steady plan d order
    unfold ChangeWalk.hear EntityWalk.hear ValueWalk.hear
    simp only [he]
    refine ⟨h.lists, fun e' he' => ?_⟩
    obtain ⟨hlists, hcurrent, hbound⟩ := h.on e' he'
    exact ⟨hlists, hcurrent, hbound⟩
  | swap _ _, _, _ => trivial
  | union children random weights, (u, x), h => by
    refine ⟨?_, SteadyAll.hearAll q he children x h.2⟩
    show (u.hear children.length random weights q e).position ≤ _
    rw [u.hear_eq_self he]
    exact h.1
  | product children random, (w, x), h => by
    refine ⟨?_, SteadyAll.hearAll q he children x h.2⟩
    show (if e.restarts then {} else w : ProductWalk S V).Steady (slackOf children)
      (movesOf plan children) (fun i => leftAt plan children i (hearAll q e children x))
    rw [he, funext fun i => leftAt_hearAll q he children i x]
    exact h.1
  | filter child _, x, h => Steady.hear q he child x h

theorem SteadyAll.hearAll (q : S) {e : Event} (he : e.restarts = false) :
    (ts : List (Tree S V)) → (x : States ts) → SteadyAll plan ts x →
      SteadyAll plan ts (hearAll q e ts x)
  | [], _, _ => trivial
  | t :: ts, (x, xs), h => ⟨Steady.hear q he t x h.1, SteadyAll.hearAll q he ts xs h.2⟩

end

/-! ## Filters that tell no ends apart -/

mutual

theorem filtersIgnoreEnds (plan : S) : (t : Tree S V) → t.LeavesIn (· = .original) →
    t.FiltersIgnoreEnds plan
  | change _ _, _ => trivial
  | swap _ _, _ => trivial
  | union children _ _, h => filtersIgnoreEndsAll plan children h.2
  | product children _, h => filtersIgnoreEndsAll plan children h.2
  | filter child _, h =>
    ⟨filtersIgnoreEnds plan child h, fun hends => by
      rw [slack_eq_exact child h] at hends
      cases hends⟩

theorem filtersIgnoreEndsAll (plan : S) : (ts : List (Tree S V)) →
    LeavesInAll (· = .original) ts → FiltersIgnoreEndsAll plan ts
  | [], _ => trivial
  | t :: ts, h => ⟨filtersIgnoreEnds plan t h.1, filtersIgnoreEndsAll plan ts h.2⟩

end

mutual

theorem LeavesIn.imp {ok ok' : Order → Prop} (h : ∀ order, ok order → ok' order) :
    (t : Tree S V) → t.LeavesIn ok → t.LeavesIn ok'
  | change _ order, ht => h order ht
  | swap _ order, ht => h order ht
  | union children _ _, ht => ⟨ht.1, LeavesInAll.imp h children ht.2⟩
  | product children _, ht => ⟨ht.1, LeavesInAll.imp h children ht.2⟩
  | filter child _, ht => LeavesIn.imp h child ht

theorem LeavesInAll.imp {ok ok' : Order → Prop} (h : ∀ order, ok order → ok' order) :
    (ts : List (Tree S V)) → LeavesInAll ok ts → LeavesInAll ok' ts
  | [], _ => trivial
  | t :: ts, ht => ⟨LeavesIn.imp h t ht.1, LeavesInAll.imp h ts ht.2⟩

end

/-- Children whose leaves visit their candidates in the order in which they are listed. -/
theorem lists_original {ts : List (Tree S V)} (h : LeavesInAll (· = .original) ts) :
    Children.Lists ⟨ts.length, stepAt plan ts, restartAt ts⟩ .exact (SteadyAll plan ts)
      (fun x i => leftAt plan ts i x) (movesOf plan ts) := by
  have hordered : LeavesInAll (· ≠ .random) ts := LeavesInAll.imp (fun _ ho => ho ▸ nofun) ts h
  have hlists := (SteadyAll.stepsWithin ts hordered (filtersIgnoreEndsAll plan ts h)).lists
  rw [slackOf_eq_exact ts h] at hlists
  exact hlists

/-! ## Draws between two restarts -/

variable {children : List (Tree S V)} {weights : Weights S}

/-- Which children a random union asks for its next move, and what they answer. -/
def asked (plan : S) (children : List (Tree S V)) (weights : Weights S)
    (x : State (.union children true weights)) (s : Source) : List (Inquiry S V) :=
  let c : Children S V (States children) :=
    ⟨children.length, stepAt plan children, restartAt children⟩
  (x.1.next c.logged true weights plan (x.2, []) s).2.2.1.2

/-- The weights by which a random union draws. -/
def weightsOf (plan : S) (children : List (Tree S V)) (weights : Weights S)
    (x : State (.union children true weights)) : List Float :=
  x.1.weights.getD (weights.resolve children.length plan)

/-- From `x₀` on a random union was drawn from for a plan, with no event in between that starts it
over: it gave `answers`, and its children gave those in `log`. -/
inductive Drawn (plan : S) (children : List (Tree S V)) (weights : Weights S)
    (x₀ : State (.union children true weights)) :
    List (Option (Move S V)) → List (Inquiry S V) → State (.union children true weights) → Prop
  | start : Drawn plan children weights x₀ [] [] x₀
  | next {answers : List (Option (Move S V))} {log : List (Inquiry S V)}
    {x : State (.union children true weights)} (h : Drawn plan children weights x₀ answers log x)
    (s : Source) :
    Drawn plan children weights x₀
      (answers ++ [((union children true weights).next plan x s).1])
      (log ++ asked plan children weights x s) ((union children true weights).next plan x s).2.1
  | hear {answers : List (Option (Move S V))} {log : List (Inquiry S V)}
    {x : State (.union children true weights)} (h : Drawn plan children weights x₀ answers log x)
    (q : S) {e : Event} (he : e.restarts = false) :
    Drawn plan children weights x₀ answers log ((union children true weights).hear q e x)

/-- The weights of a walk were resolved for some plan. -/
theorem Reached.weights_eq {x : State (.union children true weights)}
    (h : (union children true weights).Reached x) :
    x.1.weights = none ∨ ∃ q, x.1.weights = some (weights.resolve children.length q) := by
  induction h with
  | fresh => exact .inl rfl
  | @next plan s x _ ih =>
    have hweights : (Tree.next plan (.union children true weights) x s).2.1.1.weights =
        some (x.1.weights.getD (weights.resolve children.length plan)) :=
      UnionWalk.weights_next _ weights plan x.1 x.2 s
    rw [hweights]
    rcases ih with hnone | ⟨q, hq⟩
    · rw [hnone]
      exact .inr ⟨plan, rfl⟩
    · rw [hq]
      exact .inr ⟨q, rfl⟩
  | restart _ ih => exact ih
  | @hear plan e x _ ih =>
    show (x.1.hear children.length true weights plan e).weights = none ∨
      ∃ q, (x.1.hear children.length true weights plan e).weights = _
    unfold UnionWalk.hear
    split
    · exact .inr ⟨plan, rfl⟩
    · exact ih

theorem Restarted.dry_eq {x : State (.union children true weights)}
    (h : (union children true weights).Restarted x) : ∀ d ∈ x.1.dry, d = false := by
  obtain ⟨y, rfl | ⟨q, e, he, rfl⟩⟩ := h
  · intro d hd
    obtain ⟨-, -, rfl⟩ := List.mem_map.1 hd
    rfl
  · intro d hd
    change d ∈ (y.1.hear children.length true weights q e).dry at hd
    unfold UnionWalk.hear at hd
    rw [if_pos he] at hd
    obtain ⟨-, -, rfl⟩ := List.mem_map.1 hd
    rfl

/-- Every draw goes on with the answers of the children, and events in between leave them alone. -/
theorem Drawn.interleaves (ho : LeavesInAll (· = .original) children)
    {x₀ x : State (.union children true weights)} {answers : List (Option (Move S V))}
    {log : List (Inquiry S V)} (hready : ReadyAll children x₀.2)
    (hdry : x₀.1.dry = List.replicate children.length false)
    (hw : ∀ w ∈ weightsOf plan children weights x₀, 0.0 ≤ w)
    (h : Drawn plan children weights x₀ answers log x) :
    weightsOf plan children weights x = weightsOf plan children weights x₀ ∧
      SteadyAll plan children x.2 ∧
      UnionWalk.Interleaves (weightsOf plan children weights x₀) (movesOf plan children) x.1.dry
        (fun i => leftAt plan children i x.2) log ∧
      log.filterMap (·.2) = answers.filterMap id ∧
      (none ∈ answers →
        ∀ i, ¬UnionWalk.Counts (weightsOf plan children weights x₀) x.1.dry i) := by
  induction h with
  | start =>
    refine ⟨rfl, ReadyAll.steadyAll children x₀.2 hready, .start ?_ ?_, rfl, nofun⟩
    · rw [hdry, length_movesOf]
    · exact fun i hi => leftAt_eq children x₀.2 hready i hi
  | @next answers log x _ s ih =>
    obtain ⟨hweights, hsteady, hall, hmoves, hnone⟩ := ih
    obtain ⟨hsteady', hall', hmoves', hnone', hcounts⟩ :=
      UnionWalk.next_interleaves (lists_original ho) hw hweights hsteady hall s
    refine ⟨?_, hsteady', hall', ?_, fun hmem => ?_⟩
    · have hknown : (Tree.next plan (.union children true weights) x s).2.1.1.weights =
          some (weightsOf plan children weights x) :=
        UnionWalk.weights_next _ weights plan x.1 x.2 s
      unfold weightsOf at hknown hweights ⊢
      rw [hknown]
      exact hweights
    · rw [List.filterMap_append, List.filterMap_append, hmoves]
      refine congrArg (answers.filterMap id ++ ·) (hmoves'.trans ?_)
      show ((union children true weights).next plan x s).1.toList = _
      cases ((union children true weights).next plan x s).1 <;> rfl
    · rcases List.mem_append.1 hmem with hbefore | hthis
      · exact fun i hi => hnone hbefore i (hcounts i hi)
      · exact hnone' (List.mem_singleton.1 hthis).symm
  | @hear answers log x _ q e he ih =>
    obtain ⟨hweights, hsteady, hall, hmoves, hnone⟩ := ih
    have hwalk : ((union children true weights).hear q e x).1 = x.1 :=
      x.1.hear_eq_self he children.length true weights q
    have hlefts : (fun i => leftAt plan children i ((union children true weights).hear q e x).2) =
        fun i => leftAt plan children i x.2 :=
      funext fun i => leftAt_hearAll q he children i x.2
    refine ⟨?_, SteadyAll.hearAll q he children x.2 hsteady, ?_, hmoves, ?_⟩
    · unfold weightsOf at hweights ⊢
      rw [hwalk]
      exact hweights
    · rw [hwalk, hlefts]
      exact hall
    · rw [hwalk]
      exact hnone

/-- Draws from one source. -/
theorem Drawn.answers {x₀ x : State (.union children true weights)}
    {before : List (Option (Move S V))} {log : List (Inquiry S V)}
    (h : Drawn plan children weights x₀ before log x) (k : Nat) (s : Source) :
    ∃ log' x', Drawn plan children weights x₀
      (before ++ (union children true weights).answers plan k x s) log' x' := by
  induction k generalizing before log x s with
  | zero => exact ⟨log, x, (List.append_nil before).symm ▸ h⟩
  | succ k ih =>
    obtain ⟨log', x', h'⟩ := ih (h.next s) ((union children true weights).next plan x s).2.2
    refine ⟨log', x', ?_⟩
    rw [List.append_assoc] at h'
    exact h'

theorem getElem_movesOf : (ts : List (Tree S V)) → (i : Nat) → (hi : i < ts.length) →
    (hi' : i < (movesOf plan ts).length) → (movesOf plan ts)[i] = ts[i].moves plan
  | _ :: _, 0, _, _ => rfl
  | _ :: ts, i + 1, hi, hi' =>
    getElem_movesOf ts i (Nat.lt_of_succ_lt_succ hi) (Nat.lt_of_succ_lt_succ hi')

theorem LeavesInAll.getElem {ok : Order → Prop} : (ts : List (Tree S V)) → LeavesInAll ok ts →
    (i : Nat) → (hi : i < ts.length) → ts[i].LeavesIn ok
  | _ :: _, h, 0, _ => h.1
  | _ :: ts, h, i + 1, hi => LeavesInAll.getElem ts h.2 i (Nat.lt_of_succ_lt_succ hi)

/-- A walk that visits its candidates in the order in which they are listed answers all its moves in
order, and then that there is none. -/
theorem answers_eq_script {t : Tree S V} (ho : t.LeavesIn (· = .original)) {x : State t}
    (hx : t.Restarted x) (s : Source) :
    t.answers plan ((t.moves plan).length + 1) x s = script (t.moves plan) := by
  have hordered : t.LeavesIn (· ≠ .random) := LeavesIn.imp (fun _ h => h ▸ nofun) t ho
  obtain ⟨ms, hms, hanswers⟩ := Steady.answers hordered (filtersIgnoreEnds plan t ho)
    (Ready.steady t x hx.ready) s
  rw [slack_eq_exact t ho, left_eq_moves plan t x hx.ready] at hms
  obtain rfl : ms = t.moves plan := hms
  rw [hanswers, List.take_of_length_le (by rw [List.length_map]; exact Nat.le_succ _),
    Nat.add_sub_cancel_left]
  rfl

/-- What a random union yields between two restarts are the moves of its children, where all leaves
below visit their candidates as they are listed. Each child answers its moves in order, as it does
on its own, with none left out and none twice, and is not asked again once it had none. Only
children of positive weight are asked, and the union has no move only when all of them had none. -/
theorem union_interleaves (ho : LeavesInAll (· = .original) children)
    {x₀ x : State (.union children true weights)} {answers : List (Option (Move S V))}
    {log : List (Inquiry S V)} (hreached : (union children true weights).Reached x₀)
    (hx₀ : x₀ = (union children true weights).fresh ∨ (union children true weights).Restarted x₀)
    (h : Drawn plan children weights x₀ answers log x) :
    (∃ q, weightsOf plan children weights x₀ = weights.resolve children.length q) ∧
      answers.filterMap id = log.filterMap (·.2) ∧
      (∀ a ∈ log, a.1 < children.length ∧
        UnionWalk.Weighs (weightsOf plan children weights x₀) a.1) ∧
      ∀ i, (hi : i < children.length) →
        (∀ y : children[i].State, children[i].Restarted y → ∀ s,
          children[i].answers plan ((children[i].moves plan).length + 1) y s =
            script (children[i].moves plan)) ∧
          answersOf i log <+: script (children[i].moves plan) ∧
          (none ∈ answers → UnionWalk.Weighs (weightsOf plan children weights x₀) i →
            answersOf i log = script (children[i].moves plan)) := by
  have hready : (union children true weights).Ready x₀ := by
    rcases hx₀ with rfl | hx₀
    · exact ready_fresh _
    · exact hx₀.ready
  have hdry : x₀.1.dry = List.replicate children.length false := by
    refine List.eq_replicate_iff.2 ⟨hreached.sane.1, ?_⟩
    rcases hx₀ with rfl | hx₀
    · exact fun d hd => List.eq_of_mem_replicate hd
    · exact hx₀.dry_eq
  obtain ⟨q, hq⟩ : ∃ q, weightsOf plan children weights x₀ = weights.resolve children.length q := by
    unfold weightsOf
    rcases hreached.weights_eq with hnone | ⟨q, hq⟩
    · rw [hnone]
      exact ⟨plan, rfl⟩
    · rw [hq]
      exact ⟨q, rfl⟩
  have hw : ∀ w ∈ weightsOf plan children weights x₀, 0.0 ≤ w := by
    rw [hq]
    exact weights.resolve_nonneg children.length q
  obtain ⟨-, -, hall, hmoves, hnone⟩ := h.interleaves ho hready.2 hdry hw
  have hlength : (movesOf plan children).length = children.length := length_movesOf children
  refine ⟨⟨q, hq⟩, hmoves.symm, fun a ha => hlength ▸ hall.weighs a ha, fun i hi => ?_⟩
  · have hi' : i < (movesOf plan children).length := hlength ▸ hi
    refine ⟨fun y hy s => answers_eq_script (LeavesInAll.getElem children ho i hi) hy s, ?_⟩
    rw [← getElem_movesOf children i hi hi']
    exact ⟨⟨_, hall.answers i hi'⟩, fun hmem hweighs => hall.complete hi' hweighs (hnone hmem i)⟩

end Tree

end PlanSearch

namespace PlanSearch.Row

/-- All changes, all swaps with twice their weight, and changes that are left without a weight. -/
def lopsided : List (Tree Row Nat) :=
  [.change sevenOrEight .original, .swap cell .original, .change sevenOrEight .original]

/-- Of six draws the second one comes to the only swap and the last one to nothing. -/
theorem union_interleaves_lopsided :
    let plan : Row := { cells := [none, some 7] }
    let t : Tree Row Nat := .union lopsided true (.fixed [1.0, 2.0])
    let s : Source := .ofTape [0, 0x8000000000000000]
    let answers := t.answers plan 6 t.fresh s
    answers.map Option.isSome = [true, true, true, true, true, false] ∧
      ∃ log : List (Inquiry Row Nat), answers.filterMap id = log.filterMap (·.2) ∧
        answersOf 0 log = script ((Tree.change sevenOrEight .original).moves plan) ∧
        answersOf 1 log = script ((Tree.swap cell .original).moves plan) ∧
        answersOf 2 log = [] := by
  intro plan t s answers
  have hsome : answers.map Option.isSome = [true, true, true, true, true, false] := by
    decide +kernel
  have hnone : none ∈ answers := by
    have hfalse : false ∈ answers.map Option.isSome := by rw [hsome]; decide
    obtain ⟨m?, hm, hisSome⟩ := List.mem_map.1 hfalse
    exact Option.not_isSome_iff_eq_none.1 (Bool.eq_false_iff.1 hisSome) ▸ hm
  have hweights : Tree.weightsOf plan lopsided (.fixed [1.0, 2.0]) t.fresh = [1.0, 2.0, 0.0] := by
    decide +kernel
  have hfirst : UnionWalk.Weighs [1.0, 2.0, 0.0] 0 := ⟨1.0, rfl, by decide +kernel⟩
  have hsecond : UnionWalk.Weighs [1.0, 2.0, 0.0] 1 := ⟨2.0, rfl, by decide +kernel⟩
  have hordered : Tree.LeavesInAll (· = .original) lopsided := ⟨rfl, rfl, rfl, trivial⟩
  have hstart : Tree.Drawn plan lopsided (.fixed [1.0, 2.0]) t.fresh [] [] t.fresh := .start
  obtain ⟨log, x, hdrawn⟩ := hstart.answers 6 s
  obtain ⟨-, hmoves, hweighs, hchildren⟩ :=
    Tree.union_interleaves hordered .fresh (.inl rfl) hdrawn
  rw [hweights] at hweighs hchildren
  refine ⟨hsome, log, hmoves, (hchildren 0 (by decide)).2.2 hnone hfirst,
    (hchildren 1 (by decide)).2.2 hnone hsecond, ?_⟩
  have hnobody : ∀ a ∈ log, ¬a.1 = 2 := by
    intro a ha htwo
    obtain ⟨w, hw, hpos⟩ := (hweighs a ha).2
    rw [htwo] at hw
    cases hw
    exact Binary64.not_zero_lt_zero hpos
  unfold answersOf
  rw [List.filter_eq_nil_iff.2 fun a ha => by simpa using hnobody a ha]
  rfl

end PlanSearch.Row
