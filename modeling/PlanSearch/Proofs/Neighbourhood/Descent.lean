import Mathlib.Data.DFinsupp.WellFounded
import Mathlib.Data.ENat.Basic
import Mathlib.Order.PiLex
import Mathlib.SetTheory.Ordinal.Rank
import PlanSearch.Proofs.Neighbourhood.Ending

/-!
# Walks that run dry on changing plans

The stock of a walk counts its moves on one plan. Where the plan changes between draws no number
bounds the moves that are to come, since the entities and values that are listed later may be any;
but they are finitely many whenever they are listed. So a walk through a tree that comes to an end
has a rank among the ordinals, whatever the plans are, that no draw raises and each move lowers.

    t.isNeverEnding = false → Falls (t.rank x) (t.rank (t.next plan x s).2.1) (t.next plan x s).1
                                                                                        (rank_next)
-/

namespace PlanSearch

variable {α β S V σ : Type}

/-! ## Descent -/

/-- An answer takes what is left from `before` to `after`: never up, and down with a move. -/
def Falls {γ : Type*} [Preorder γ] (before after : γ) : Option α → Prop
  | none => after ≤ before
  | some _ => after < before

namespace Falls

variable {γ : Type*} [Preorder γ] {m? : Option α} {a b c : γ}

theorem le (h : Falls a b m?) : b ≤ a := by
  cases m? with
  | none => exact h
  | some _ => exact le_of_lt h

theorem trans (hab : b ≤ a) (h : Falls b c m?) : Falls a c m? := by
  cases m? with
  | none => exact le_trans h hab
  | some _ => exact lt_of_lt_of_le h hab

end Falls

/-- How high `x` stands where `left` says what is left of it. -/
noncomputable def height {γ : Type*} [LT γ] [WellFoundedLT γ] (left : σ → γ) (x : σ) : Ordinal.{0} :=
  ((InvImage.wf left wellFounded_lt).apply x).rank

theorem height_lt {γ : Type*} [LT γ] [WellFoundedLT γ] {left : σ → γ} {x y : σ}
    (h : left y < left x) : height left y < height left x :=
  Acc.rank_lt_of_rel (r := InvImage (· < ·) left) _ h

theorem height_le {γ : Type*} [Preorder γ] [WellFoundedLT γ] {left : σ → γ} {x y : σ}
    (h : left y ≤ left x) : height left y ≤ height left x := by
  show Acc.rank _ ≤ _
  rw [Acc.rank_eq]
  exact Ordinal.iSup_le fun z => Order.succ_le_of_lt (height_lt (lt_of_lt_of_le z.2 h))

theorem Falls.height {γ : Type*} [Preorder γ] [WellFoundedLT γ] {left : σ → γ} {x y : σ}
    {m? : Option α} (h : Falls (left x) (left y) m?) :
    Falls (height left x) (height left y) m? := by
  cases m? with
  | none => exact height_le h
  | some _ => exact height_lt h

/-! ## Leaves -/

/-- The values at hand that are still to come; no one knows how many if they are to be listed
first. -/
def ValueWalk.remainder (d : Definition S V) (e : Nat) (w : ValueWalk V) : ℕ∞ :=
  if w.isOutdated d e then ⊤ else w.upcoming.length

theorem ValueWalk.falls_next {order : Order} (ho : order.isRandom = false) (plan : S)
    (d : Definition S V) (e : Nat) (w : ValueWalk V) (s : Source) :
    Falls (w.remainder d e) ((w.next plan d order e s).2.1.remainder d e) (w.next plan d order e s).1 := by
  -- What is left once the values are up to date.
  have htake : ∀ (v : ValueWalk V) (s : Source), v.isOutdated d e = false →
      Falls (v.remainder d e) ((v.next plan d order e s).2.1.remainder d e) (v.next plan d order e s).1 := by
    intro v s hv
    rw [next_eq hv ho]
    rcases hupcoming : v.upcoming with _ | ⟨a, rest⟩
    · exact le_refl (v.remainder d e)
    · show (if isOutdated d e { v with upcoming := rest } then ⊤ else (rest.length : ℕ∞)) <
        if v.isOutdated d e then ⊤ else (v.upcoming.length : ℕ∞)
      rw [show isOutdated d e { v with upcoming := rest } = false from hv, hv, hupcoming]
      exact Nat.cast_lt.2 (Nat.lt_succ_self _)
  cases hw : w.isOutdated d e with
  | false => exact htake w s hw
  | true =>
    have hstarted := w.isOutdated_start plan d order e s
    have hnext : w.next plan d order e s =
        (w.start plan d order e s).1.next plan d order e (w.start plan d order e s).2 := by
      unfold ValueWalk.next
      rw [hw, hstarted]
      rfl
    rw [hnext]
    refine Falls.trans ?_ (htake _ _ hstarted)
    show _ ≤ if w.isOutdated d e then ⊤ else (w.upcoming.length : ℕ∞)
    rw [hw]
    exact le_top

/-- The entities that are still to come. -/
def EntityWalk.remainder (w : EntityWalk) : ℕ∞ := if w.stale then ⊤ else w.candidates.length

namespace ChangeWalk

variable {sh : Shape} [Plan S sh] {plan : S} {d : Definition S V} {order : Order}

/-- The entities to come, and the values of the current one. -/
def remainder (d : Definition S V) (w : ChangeWalk V) : ℕ∞ ×ₗ ℕ∞ :=
  toLex (w.entities.remainder, w.current.elim 0 fun e => w.values.remainder d e)

theorem length_advance (plan : S) (d : Definition S V) (order : Order) (es : List Nat)
    (values : ValueWalk V) (s : Source) :
    match advance plan d order es values s with
    | (none, rest, _, _) => rest = []
    | (some _, rest, _, _) => rest.length < es.length := by
  induction es generalizing values s with
  | nil => rfl
  | cons e es ih =>
    unfold advance
    generalize values.start plan d order e s = q
    obtain ⟨started, s'⟩ := q
    dsimp only
    generalize started.next plan d order e s' = r
    obtain ⟨_ | v, values', s''⟩ := r
    · have hih := ih values' s''
      dsimp only
      generalize advance plan d order es values' s'' = a at hih ⊢
      obtain ⟨_ | found, rest, values'', s₃⟩ := a
      · exact hih
      · exact Nat.lt_succ_of_lt hih
    · exact Nat.lt_succ_self _

theorem falls_nextEntity (plan : S) (d : Definition S V) (order : Order) (w : ChangeWalk V)
    (s : Source) :
    Falls (w.remainder d) ((w.nextEntity plan d order s).2.1.remainder d)
      (w.nextEntity plan d order s).1 := by
  have hfresh := (w.entities.arranges_prepare plan d.cell.family order s).2
  have hlisted : (w.entities.prepare plan d.cell.family order s).1.remainder ≤
      w.entities.remainder := by
    unfold EntityWalk.prepare
    split
    · next hstale => exact le_of_le_of_eq le_top (if_pos hstale).symm
    · exact le_refl _
  unfold nextEntity
  generalize w.entities.prepare plan d.cell.family order s = q at hfresh hlisted ⊢
  obtain ⟨entities, s'⟩ := q
  have hremainder (rest : List Nat) :
      EntityWalk.remainder { entities with candidates := rest } = rest.length :=
    if_neg (Bool.not_eq_true _ ▸ hfresh)
  have hlength := length_advance plan d order entities.candidates w.values s'
  dsimp only at hlisted ⊢
  generalize advance plan d order entities.candidates w.values s' = r at hlength ⊢
  obtain ⟨_ | ⟨e, v⟩, rest, values, s''⟩ := r
  · obtain rfl : rest = [] := hlength
    unfold remainder
    dsimp only
    rw [hremainder]
    exact Prod.Lex.toLex_le_toLex'.2 ⟨zero_le, fun _ => zero_le⟩
  · have hlt : (rest.length : ℕ∞) < entities.candidates.length := Nat.cast_lt.2 hlength
    unfold remainder
    dsimp only
    rw [hremainder]
    rw [hremainder entities.candidates] at hlisted
    exact Prod.Lex.toLex_lt_toLex.2 (.inl (lt_of_lt_of_le hlt hlisted))

theorem falls_next (ho : order.isRandom = false) (plan : S) (d : Definition S V)
    (w : ChangeWalk V) (s : Source) :
    Falls (w.remainder d) ((w.next plan d order s).2.1.remainder d) (w.next plan d order s).1 := by
  unfold ChangeWalk.next
  rw [ho]
  show Falls _ ((w.nextOrderly plan d order s).2.1.remainder d) (w.nextOrderly plan d order s).1
  obtain ⟨entities, values, _ | e⟩ := w
  · exact falls_nextEntity plan d order ⟨entities, values, none⟩ s
  · have hvalues := values.falls_next ho plan d e s
    unfold nextOrderly
    dsimp only
    generalize values.next plan d order e s = q at hvalues ⊢
    obtain ⟨_ | v, values', s'⟩ := q
    · have hkept : remainder d ⟨entities, values', some e⟩ ≤ remainder d ⟨entities, values, some e⟩ :=
        Prod.Lex.toLex_le_toLex.2 (.inr ⟨rfl, hvalues⟩)
      exact Falls.trans hkept (falls_nextEntity plan d order ⟨entities, values', some e⟩ s')
    · exact Prod.Lex.toLex_lt_toLex.2 (.inr ⟨rfl, hvalues⟩)

end ChangeWalk

namespace SwapWalk

variable {sh : Shape} [Plan S sh] {plan : S} {x : Variable S V} {order : Order}

/-- The first entities of pairs to come, and the second ones for the current first. -/
def remainder (w : SwapWalk) : ℕ∞ ×ₗ Nat :=
  toLex (if w.stale then ⊤ else w.lefts.length, w.rights.length)

theorem falls_nextPair (lefts rights : List Nat) :
    Falls (toLex ((lefts.length : ℕ∞), rights.length))
      (toLex (((nextPair lefts rights).2.1.length : ℕ∞), (nextPair lefts rights).2.2.length))
      (nextPair lefts rights).1 := by
  fun_cases nextPair lefts rights with
  | case1 left lefts right rights =>
    exact Prod.Lex.toLex_lt_toLex.2 (.inr ⟨rfl, Nat.lt_succ_self _⟩)
  | case2 _ left =>
    exact Prod.Lex.toLex_le_toLex.2 (.inl (Nat.cast_lt.2 (Nat.lt_succ_self _)))
  | case3 _ left right rights =>
    exact Prod.Lex.toLex_lt_toLex.2 (.inl (Nat.cast_lt.2 (Nat.lt_succ_self _)))
  | case4 => exact Prod.Lex.toLex_le_toLex'.2 ⟨zero_le, fun _ => Nat.zero_le _⟩

theorem falls_next (ho : order.isRandom = false) (plan : S) (x : Variable S V) (w : SwapWalk)
    (s : Source) :
    Falls w.remainder (w.next plan x order s).2.1.remainder (w.next plan x order s).1 := by
  have hprepared : (w.prepare plan x order s).1.stale = false ∧
      (w.prepare plan x order s).1.remainder ≤ w.remainder := by
    unfold prepare
    split
    · next hstale =>
      refine ⟨rfl, Prod.Lex.toLex_le_toLex.2 (.inl ?_)⟩
      rw [if_pos hstale]
      exact WithTop.coe_lt_top _
    · next hstale => exact ⟨Bool.not_eq_true _ ▸ hstale, le_refl _⟩
  unfold SwapWalk.next
  rw [ho]
  show Falls _ (w.nextOrderly plan x order s).2.1.remainder (w.nextOrderly plan x order s).1
  unfold nextOrderly
  generalize w.prepare plan x order s = q at hprepared ⊢
  obtain ⟨v, s'⟩ := q
  obtain ⟨hstale, hle⟩ := hprepared
  dsimp only at hstale hle ⊢
  refine Falls.trans hle ?_
  have hpair := falls_nextPair v.lefts v.rights
  have hv : v.remainder = toLex ((v.lefts.length : ℕ∞), v.rights.length) := by
    unfold remainder
    rw [hstale]
    rfl
  rw [hv]
  generalize nextPair v.lefts v.rights = r at hpair ⊢
  obtain ⟨_ | ⟨left, right⟩, lefts, rights⟩ := r
  · show toLex ((if v.stale then ⊤ else (lefts.length : ℕ∞)), rights.length) ≤ _
    rw [hstale]
    exact hpair
  · show toLex ((if v.stale then ⊤ else (lefts.length : ℕ∞)), rights.length) < _
    rw [hstale]
    exact hpair

end SwapWalk

/-! ## Inner nodes -/

/-- Children have ranks, which no step raises and which a move of a child that ends lowers. To step
or to restart a child leaves the others alone. -/
structure Children.Descends (c : Children S V σ) (ends : Nat → Prop) (ranks : σ → Nat → Ordinal.{0}) :
    Prop where
  le : ∀ (i : Nat) (x : σ) (s : Source), ranks (c.step i x s).2.1 i ≤ ranks x i
  falls : ∀ {i : Nat} (x : σ) (s : Source), ends i →
    Falls (ranks x i) (ranks (c.step i x s).2.1 i) (c.step i x s).1
  step : ∀ (i : Nat) (x : σ) (s : Source) {j : Nat}, j ≠ i →
    ranks (c.step i x s).2.1 j = ranks x j
  restart : ∀ (i : Nat) (x : σ) {j : Nat}, j ≠ i → ranks (c.restart i x) j = ranks x j

variable {c : Children S V σ} {ends : Nat → Prop} {ranks : σ → Nat → Ordinal.{0}}

/-- The ranks of `n` children, the first of which counts most. -/
def ranking (n : Nat) (ranks : Nat → Ordinal.{0}) : Lex (Fin n → Ordinal.{0}) :=
  toLex fun i => ranks i

theorem ranking_le {n : Nat} {a b : Nat → Ordinal.{0}} (h : ∀ i, b i ≤ a i) :
    ranking n b ≤ ranking n a :=
  Pi.toLex_monotone fun i => h i

theorem ranking_lt {n p : Nat} {a b : Nat → Ordinal.{0}} (hbefore : ∀ i < p, b i ≤ a i) (hp : p < n)
    (hlt : b p < a p) : ranking n b < ranking n a := by
  classical
  -- Among the children up to `p` there is a first one whose rank falls.
  have hfalls : ∃ i, i ≤ p ∧ b i < a i := ⟨p, Nat.le_refl p, hlt⟩
  obtain ⟨hle, hfirst⟩ := Nat.find_spec hfalls
  refine ⟨⟨Nat.find hfalls, Nat.lt_of_le_of_lt hle hp⟩, fun i hi => ?_, hfirst⟩
  have hi : (i : Nat) < Nat.find hfalls := hi
  have hip : (i : Nat) < p := Nat.lt_of_lt_of_le hi hle
  exact le_antisymm (hbefore i hip)
    (le_of_not_gt fun h => Nat.find_min hfalls hi ⟨Nat.le_of_lt hip, h⟩)

namespace Children.Descends

theorem step_le (h : c.Descends ends ranks) (i : Nat) (x : σ) (s : Source) (j : Nat) :
    ranks (c.step i x s).2.1 j ≤ ranks x j := by
  by_cases hj : j = i
  · subst hj
    exact h.le j x s
  · exact le_of_eq (h.step i x s hj)

end Children.Descends

namespace UnionWalk

theorem falls_nextOrderly (h : c.Descends ends ranks) (hends : ∀ i < c.count, ends i)
    (k : Nat) (u : UnionWalk) (x : σ) (s : Source) (hk : u.position + k ≤ c.count) :
    Falls (ranking c.count (ranks x)) (ranking c.count (ranks (nextOrderly c k u x s).2.2.1))
      (nextOrderly c k u x s).1 := by
  induction k generalizing u x s with
  | zero => exact le_refl _
  | succ k ih =>
    have hi : u.position < c.count := by omega
    have hle := h.step_le u.position x s
    have hfalls := h.falls x s (hends u.position hi)
    unfold nextOrderly
    generalize c.step u.position x s = q at hle hfalls ⊢
    obtain ⟨_ | m, x', s'⟩ := q
    · have hrest := ih { u with position := u.position + 1 } x' s' (by
        show u.position + 1 + k ≤ c.count
        omega)
      exact hrest.trans (ranking_le hle)
    · exact ranking_lt (fun i _ => hle i) hi hfalls

end UnionWalk

namespace ProductWalk

theorem falls_parts (h : c.Descends ends ranks) (k i : Nat) (x : σ) (s : Source) :
    (∀ j, ranks (parts c k i x s).2.1 j ≤ ranks x j) ∧
      ((parts c k i x s).1.isSome → ∀ j, i ≤ j → j < i + k → ends j →
        ranks (parts c k i x s).2.1 j < ranks x j) := by
  induction k generalizing i x s with
  | zero => exact ⟨fun _ => le_refl _, fun _ j hij hj => absurd hj (Nat.not_lt_of_le hij)⟩
  | succ k ih =>
    have hle := h.step_le i x s
    have hfalls := fun hi : ends i => h.falls x s hi
    unfold parts
    generalize c.step i x s = q at hle hfalls ⊢
    obtain ⟨_ | m, x₁, s₁⟩ := q
    · exact ⟨hle, fun hsome => absurd hsome Bool.false_ne_true⟩
    obtain ⟨hrest, hlt⟩ := ih (i + 1) x₁ s₁
    dsimp only
    generalize parts c k (i + 1) x₁ s₁ = r at hrest hlt ⊢
    obtain ⟨_ | ms, x₂, s₂⟩ := r
    · exact ⟨fun j => (hrest j).trans (hle j), fun hsome => absurd hsome Bool.false_ne_true⟩
    refine ⟨fun j => (hrest j).trans (hle j), fun _ j hij hj hends => ?_⟩
    rcases Nat.eq_or_lt_of_le hij with rfl | hij
    · exact lt_of_le_of_lt (hrest i) (hfalls hends)
    · exact lt_of_lt_of_le (hlt rfl j hij (by omega) hends) (hle j)

theorem ranks_firstParts (h : c.Descends ends ranks) (k i : Nat) (x : σ) (s : Source) :
    ∀ j < i, ranks (firstParts c k i x s).2.1 j = ranks x j := by
  induction k generalizing i x s with
  | zero => exact fun _ _ => rfl
  | succ k ih =>
    intro j hj
    have hstep := h.step i (c.restart i x) s (Nat.ne_of_lt hj)
    rw [h.restart i x (Nat.ne_of_lt hj)] at hstep
    unfold firstParts
    generalize c.step i (c.restart i x) s = q at hstep ⊢
    obtain ⟨_ | m, x₁, s₁⟩ := q
    · exact hstep
    have hrest := ih (i + 1) x₁ s₁ j (Nat.lt_succ_of_lt hj)
    dsimp only
    generalize firstParts c k (i + 1) x₁ s₁ = r at hrest ⊢
    obtain ⟨_ | ms, x₂, s₂⟩ := r
    · exact hrest.trans hstep
    · exact hrest.trans hstep

/-- The child that turns counts more than those that start over. -/
theorem falls_turn (h : c.Descends ends ranks) (hends : ∀ i < c.count, ends i)
    (current : List (Move S V)) (p : Nat) (x : σ) (s : Source) (hp : p ≤ c.count) :
    Falls (ranking c.count (ranks x)) (ranking c.count (ranks (turn c current p x s).2.1))
      (turn c current p x s).1 := by
  induction p generalizing x s with
  | zero => exact le_refl _
  | succ p ih =>
    have hle := h.step_le p x s
    have hfalls := h.falls x s (hends p hp)
    unfold turn
    generalize c.step p x s = q at hle hfalls ⊢
    obtain ⟨_ | m, x₁, s₁⟩ := q
    · exact (ih x₁ s₁ (Nat.le_of_succ_le hp)).trans (ranking_le hle)
    have hfirst := ranks_firstParts h (c.count - (p + 1)) (p + 1) x₁ s₁
    dsimp only
    generalize firstParts c (c.count - (p + 1)) (p + 1) x₁ s₁ = r at hfirst ⊢
    obtain ⟨ms?, x₂, s₂⟩ := r
    have hlt : ranking c.count (ranks x₂) < ranking c.count (ranks x) :=
      ranking_lt (fun i hi => le_of_eq_of_le (hfirst i (Nat.lt_succ_of_lt hi)) (hle i)) hp
        (lt_of_eq_of_lt (hfirst p (Nat.lt_succ_self p)) hfalls)
    cases ms? with
    | none => exact le_of_lt hlt
    | some ms => exact hlt

theorem falls_next (h : c.Descends ends ranks) {random : Bool}
    (hrandom : random → c.count ≠ 0 → ∃ i < c.count, ends i)
    (horderly : random = false → ∀ i < c.count, ends i) (w : ProductWalk S V) (x : σ) (s : Source) :
    Falls (ranking c.count (ranks x)) (ranking c.count (ranks (w.next c random x s).2.2.1))
      (w.next c random x s).1 := by
  unfold ProductWalk.next
  split
  · exact le_refl _
  next hopen =>
  have hcount : c.count ≠ 0 := fun hzero => hopen (.inl hzero)
  -- One draw from each child, one of which at least comes to an end.
  have hdraws : (∃ i < c.count, ends i) → Falls (ranking c.count (ranks x))
      (ranking c.count (ranks (parts c c.count 0 x s).2.1)) (parts c c.count 0 x s).1 := by
    intro ⟨i, hi, hiEnds⟩
    obtain ⟨hle, hlt⟩ := falls_parts h c.count 0 x s
    generalize parts c c.count 0 x s = q at hle hlt ⊢
    obtain ⟨_ | ms, x', s'⟩ := q
    · exact ranking_le hle
    · exact ranking_lt (fun j _ => hle j) hi (hlt rfl i (Nat.zero_le i) (by omega) hiEnds)
  cases random with
  | true =>
    show Falls _ (ranking c.count (ranks (w.nextRandom c x s).2.2.1)) (w.nextRandom c x s).1
    unfold nextRandom
    have hfalls := hdraws (hrandom rfl hcount)
    generalize parts c c.count 0 x s = q at hfalls ⊢
    obtain ⟨_ | ms, x', s'⟩ := q
    · exact hfalls
    · exact hfalls
  | false =>
    have hends := horderly rfl
    show Falls _ (ranking c.count (ranks (w.nextOrderly c x s).2.2.1)) (w.nextOrderly c x s).1
    unfold nextOrderly
    split
    · have hfalls := hdraws ⟨0, Nat.pos_of_ne_zero hcount, hends 0 (Nat.pos_of_ne_zero hcount)⟩
      generalize parts c c.count 0 x s = q at hfalls ⊢
      obtain ⟨_ | ms, x', s'⟩ := q
      · exact hfalls
      · exact hfalls
    · have hturn := falls_turn h hends w.current c.count x s (Nat.le_refl _)
      generalize turn c w.current c.count x s = q at hturn ⊢
      obtain ⟨_ | ms, x', s'⟩ := q
      · exact hturn
      · exact hturn

end ProductWalk

theorem falls_nextKept {rank : σ → Ordinal.{0}}
    {step : σ → Source → Option (Move S V) × σ × Source}
    (h : ∀ x s, Falls (rank x) (rank (step x s).2.1) (step x s).1) (keep : Move S V → Bool) (k : Nat)
    (x : σ) (s : Source) :
    Falls (rank x) (rank (nextKept keep step k x s).2.1) (nextKept keep step k x s).1 := by
  induction k generalizing x s with
  | zero => exact le_refl _
  | succ k ih =>
    have hstep := h x s
    unfold nextKept
    generalize step x s = q at hstep ⊢
    obtain ⟨_ | m, x', s'⟩ := q
    · exact hstep
    dsimp only
    split
    · exact hstep
    · exact (ih x' s').trans hstep.le

/-! ## Trees -/

namespace Tree

mutual

/-- The rank of a walk, where the tree comes to an end. -/
noncomputable def rank : (t : Tree S V) → State t → Ordinal.{0}
  | change d _ => height (ChangeWalk.remainder d)
  | swap _ _ => height SwapWalk.remainder
  | union children _ _ => fun x =>
    height (fun x => ranking children.length fun i => rankAt children i x) x.2
  | product children _ => fun x =>
    height (fun x => ranking children.length fun i => rankAt children i x) x.2
  | filter child _ => rank child

/-- The rank of child `i`, if it comes to an end. -/
noncomputable def rankAt : (ts : List (Tree S V)) → Nat → States ts → Ordinal.{0}
  | [], _, _ => 0
  | t :: _, 0, (x, _) => if isNeverEnding t then 0 else rank t x
  | _ :: ts, i + 1, (_, xs) => rankAt ts i xs

end

theorem rankAt_restartAt : (ts : List (Tree S V)) → (i : Nat) → (x : States ts) → (j : Nat) →
    j ≠ i → rankAt ts j (restartAt ts i x) = rankAt ts j x
  | [], _, _, _, _ => rfl
  | _ :: _, 0, _, 0, hj => absurd rfl hj
  | _ :: _, 0, _, _ + 1, _ => rfl
  | _ :: _, _ + 1, _, 0, _ => rfl
  | _ :: ts, i + 1, (_, xs), j + 1, hj =>
    rankAt_restartAt ts i xs j fun e => hj (congrArg (· + 1) e)

variable {sh : Shape} [Plan S sh]

theorem rankAt_stepAt (plan : S) : (ts : List (Tree S V)) → (i : Nat) → (x : States ts) →
    (s : Source) → (j : Nat) → j ≠ i → rankAt ts j (stepAt plan ts i x s).2.1 = rankAt ts j x
  | [], _, _, _, _, _ => rfl
  | _ :: _, 0, _, _, 0, hj => absurd rfl hj
  | _ :: _, 0, _, _, _ + 1, _ => rfl
  | _ :: _, _ + 1, _, _, 0, _ => rfl
  | _ :: ts, i + 1, (_, xs), s, j + 1, hj =>
    rankAt_stepAt plan ts i xs s j fun e => hj (congrArg (· + 1) e)

theorem childrenDescend {plan : S} {ts : List (Tree S V)}
    (hstep : ∀ (i : Nat) (x : States ts) (s : Source),
      rankAt ts i (stepAt plan ts i x s).2.1 ≤ rankAt ts i x ∧
        (endsAt ts i → Falls (rankAt ts i x) (rankAt ts i (stepAt plan ts i x s).2.1)
          (stepAt plan ts i x s).1)) :
    Children.Descends (⟨ts.length, stepAt plan ts, restartAt ts⟩ : Children S V (States ts))
      (endsAt ts) fun x i => rankAt ts i x where
  le i x s := (hstep i x s).1
  falls x s := (hstep _ x s).2
  step i x s _ hj := rankAt_stepAt plan ts i x s _ hj
  restart i x _ hj := rankAt_restartAt ts i x _ hj

mutual

/-- A tree that comes to an end lowers the rank of its walk with each move, whatever the plan is. -/
theorem rank_next (plan : S) : (t : Tree S V) → t.isNeverEnding = false → (x : State t) →
    (s : Source) → Falls (t.rank x) (t.rank (t.next plan x s).2.1) (t.next plan x s).1
  | change d _, h, (w : ChangeWalk V), s => (w.falls_next h plan d s).height
  | swap x _, h, (w : SwapWalk), s => (w.falls_next h plan x s).height
  | union children random weights, h, (u, x), s => by
    obtain ⟨rfl, hsome⟩ := Bool.or_eq_false_iff.1 h
    by_cases hu : u.position ≤ children.length
    · exact (UnionWalk.falls_nextOrderly (childrenDescend (falls_stepAt plan children))
        (fun i _ => endsAt_of_some children hsome i) (children.length - u.position) u x s
        (Nat.le_of_eq (Nat.add_sub_cancel' hu))).height
    · have hover : children.length - u.position = 0 := Nat.sub_eq_zero_of_le (Nat.le_of_not_le hu)
      show Falls _ (height _ (UnionWalk.nextOrderly _ (children.length - u.position) u x s).2.2.1)
        (UnionWalk.nextOrderly _ (children.length - u.position) u x s).1
      rw [hover]
      exact le_refl _
  | product children random, h, (w, x), s => by
    change (if children.isEmpty then false
      else if random then allNeverEnding children else someNeverEnding children) = false at h
    refine (ProductWalk.falls_next (childrenDescend (falls_stepAt plan children))
      (fun hr hne => ?_) (fun hr i hi => ?_) w x s).height
    · rw [hr, if_neg (by simpa using hne)] at h
      exact exists_endsAt children h
    · have hne : ¬children.isEmpty := by
        rw [List.isEmpty_iff]
        rintro rfl
        exact absurd hi (Nat.not_lt_zero i)
      rw [hr, if_neg hne] at h
      exact endsAt_of_some children h i
  | filter child keep, h, x, s => falls_nextKept (rank_next plan child h) (keep plan) _ x s

theorem falls_stepAt (plan : S) : (ts : List (Tree S V)) → (i : Nat) → (x : States ts) →
    (s : Source) → rankAt ts i (stepAt plan ts i x s).2.1 ≤ rankAt ts i x ∧
      (endsAt ts i → Falls (rankAt ts i x) (rankAt ts i (stepAt plan ts i x s).2.1)
        (stepAt plan ts i x s).1)
  | [], _, _, _ => ⟨le_refl _, fun _ => le_refl _⟩
  | t :: ts, 0, (x, xs), s => by
    have hfirst : t.isNeverEnding = false →
        Falls (rankAt (t :: ts) 0 (x, xs)) (rankAt (t :: ts) 0 (stepAt plan (t :: ts) 0 (x, xs) s).2.1)
          (stepAt plan (t :: ts) 0 (x, xs) s).1 := fun h => by
      show Falls (if isNeverEnding t then 0 else rank t x)
        (if isNeverEnding t then 0 else rank t (next plan t x s).2.1) (next plan t x s).1
      rw [h]
      exact rank_next plan t h x s
    refine ⟨?_, hfirst⟩
    cases h : isNeverEnding t with
    | false => exact (hfirst h).le
    | true =>
      show (if isNeverEnding t then 0 else rank t _) ≤ if isNeverEnding t then 0 else rank t _
      rw [h]
      exact le_refl _
  | _ :: ts, i + 1, (_, xs), s => falls_stepAt plan ts i xs s

end

end Tree

end PlanSearch
