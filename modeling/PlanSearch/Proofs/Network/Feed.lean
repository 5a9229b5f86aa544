import Mathlib.Data.Set.Insert
import Mathlib.Logic.Function.Basic
import PlanSearch.Network.Memory

/-!
# Streams as feeds

A feed is what a sequence of deltas amounts to: which tuple is live under each identity, and which
identities were named at all. The second part is kept because a node asks the problem's functions
only about tuples that are named; for all others it relies on what it was answered before.

A layout says what the positions of a tuple hold. All tuples of one stream have the same layout.

    x.hearAll (xs ++ ys) = (x.hearAll xs).hearAll ys                         (hearAll_append)
-/

namespace PlanSearch

/-! ## Layouts -/

/-- The family of facts that each position holds, or nothing for the key of a group. -/
abbrev Layout : Type := List (Option Nat)

def Element.family? : Element → Option Nat
  | .fact f => some f.family
  | .group _ => none

/-- The facts among the elements of a tuple. -/
def TupleId.facts (id : TupleId) : List Fact :=
  id.filterMap fun
    | .fact f => some f
    | .group _ => none

namespace Tuple

/-- The positions hold what the layout says, with one aggregate for each group. -/
def Fits (t : Tuple) (l : Layout) : Prop :=
  t.id.map Element.family? = l ∧ t.aggregates.length = l.count none

/-- The tuple fits the layout, and all its facts satisfy `known`. -/
def Over (l : Layout) (known : Fact → Prop) (t : Tuple) : Prop :=
  t.Fits l ∧ ∀ f ∈ TupleId.facts t.id, known f

variable {t l r : Tuple} {a b : Layout} {known : Fact → Prop}

theorem mem_facts {f : Fact} {id : TupleId} : f ∈ TupleId.facts id ↔ .fact f ∈ id := by
  unfold TupleId.facts
  rw [List.mem_filterMap]
  constructor
  · rintro ⟨e, he, hf⟩
    cases e with
    | fact g => cases hf; exact he
    | group k => cases hf
  · intro h
    exact ⟨.fact f, h, rfl⟩

theorem facts_append (x y : TupleId) :
    TupleId.facts (x ++ y) = TupleId.facts x ++ TupleId.facts y :=
  List.filterMap_append

theorem over_ofFact {f : Fact} (h : known f) (origin : Nat) :
    (ofFact f origin).Over [some f.family] known := by
  refine ⟨⟨rfl, rfl⟩, fun g hg => ?_⟩
  rw [mem_facts] at hg
  simp only [ofFact, List.mem_singleton, Element.fact.injEq] at hg
  exact hg ▸ h

theorem over_ofGroup (k : Key) (n : Int64) (origin : Nat) :
    (ofGroup k n origin).Over [none] known := by
  refine ⟨⟨rfl, rfl⟩, fun g hg => ?_⟩
  rw [mem_facts] at hg
  simp [ofGroup] at hg

theorem Over.withOrigin (h : t.Over a known) (origin : Nat) : (t.withOrigin origin).Over a known := h

theorem Over.join (hl : l.Over a known) (hr : r.Over b known) (origin : Nat) :
    (l.join r origin).Over (a ++ b) known := by
  obtain ⟨⟨hla, hlc⟩, hlk⟩ := hl
  obtain ⟨⟨hra, hrc⟩, hrk⟩ := hr
  refine ⟨⟨?_, ?_⟩, fun f hf => ?_⟩
  · simp only [Tuple.join, List.map_append, hla, hra]
  · simp only [Tuple.join, List.length_append, hlc, hrc, List.count_append]
  · simp only [Tuple.join, facts_append, List.mem_append] at hf
    exact hf.elim (hlk f) (hrk f)

theorem Fits.length (h : t.Fits a) : t.id.length = a.length := by
  rw [← h.1, List.length_map]

end Tuple

/-! ## Feeds -/

namespace Delta

/-- The identity that the delta names. -/
def id : Delta → TupleId
  | insert t | update t => t.id
  | retract id => id

/-- The tuple that the delta leaves live. -/
def tuple? : Delta → Option Tuple
  | insert t | update t => some t
  | retract _ => none

theorem id_eq_of_tuple? {d : Delta} {t : Tuple} (h : d.tuple? = some t) : t.id = d.id := by
  cases d <;> cases h <;> rfl

end Delta

/-- What a stream of deltas amounts to. -/
structure Feed where
  live : TupleId → Option Tuple
  /-- The identities named so far. -/
  touched : Set TupleId

namespace Feed

/-- The feed of no deltas. -/
def empty : Feed := ⟨fun _ => none, ∅⟩

def hear (x : Feed) (d : Delta) : Feed where
  live := Function.update x.live d.id d.tuple?
  touched := insert d.id x.touched

def hearAll (x : Feed) (ds : List Delta) : Feed := ds.foldl hear x

/-- The same tuples, none of them named yet. -/
def rested (x : Feed) : Feed := { x with touched := ∅ }

/-- Live tuples stand under their own identity, fit the layout and consist of known facts. -/
def Over (l : Layout) (known : Fact → Prop) (x : Feed) : Prop :=
  ∀ id t, x.live id = some t → t.id = id ∧ t.Over l known

variable {x : Feed} {d : Delta} {ds es : List Delta} {i : TupleId} {t : Tuple}

/-! ## Lemmas -/

theorem live_hear (x : Feed) (d : Delta) (i : TupleId) :
    (x.hear d).live i = if i = d.id then d.tuple? else x.live i :=
  Function.update_apply ..

theorem live_hear_self (x : Feed) (d : Delta) : (x.hear d).live d.id = d.tuple? :=
  Function.update_self ..

theorem live_hear_insert (x : Feed) (t : Tuple) : (x.hear (.insert t)).live t.id = some t :=
  x.live_hear_self (.insert t)

theorem live_hear_retract (x : Feed) (i : TupleId) : (x.hear (.retract i)).live i = none :=
  x.live_hear_self (.retract i)

theorem live_hear_of_ne (h : i ≠ d.id) : (x.hear d).live i = x.live i :=
  Function.update_of_ne h ..

theorem mem_touched_hear : i ∈ (x.hear d).touched ↔ i = d.id ∨ i ∈ x.touched := Set.mem_insert_iff

theorem touched_of_hear (h : i ∈ (x.hear d).touched) (hi : i ≠ d.id) : i ∈ x.touched :=
  (mem_touched_hear.1 h).resolve_left hi

/-- A second word on an identity replaces the first. -/
theorem hear_hear_of_id_eq {e : Delta} (h : d.id = e.id) : (x.hear d).hear e = x.hear e := by
  unfold hear
  simp only [h, Function.update_idem, Set.insert_idem]

@[simp] theorem hearAll_nil (x : Feed) : x.hearAll [] = x := rfl

@[simp] theorem hearAll_cons (x : Feed) (d : Delta) (ds : List Delta) :
    x.hearAll (d :: ds) = (x.hear d).hearAll ds := rfl

theorem hearAll_append (x : Feed) (ds es : List Delta) :
    x.hearAll (ds ++ es) = (x.hearAll ds).hearAll es := List.foldl_append

theorem mem_touched_hearAll : i ∈ (x.hearAll ds).touched ↔ i ∈ x.touched ∨ ∃ d ∈ ds, d.id = i := by
  induction ds generalizing x with
  | nil => simp
  | cons d ds ih =>
    rw [hearAll_cons, ih, mem_touched_hear]
    constructor
    · rintro ((h | h) | ⟨e, he, h⟩)
      · exact .inr ⟨d, List.mem_cons_self, h.symm⟩
      · exact .inl h
      · exact .inr ⟨e, List.mem_cons_of_mem _ he, h⟩
    · rintro (h | ⟨e, he, h⟩)
      · exact .inl (.inr h)
      · rcases List.mem_cons.1 he with rfl | he
        · exact .inl (.inl h.symm)
        · exact .inr ⟨e, he, h⟩

theorem live_hearAll_of_forall_ne (h : ∀ d ∈ ds, d.id ≠ i) : (x.hearAll ds).live i = x.live i := by
  induction ds generalizing x with
  | nil => rfl
  | cons d ds ih =>
    rw [hearAll_cons, ih fun e he => h e (List.mem_cons_of_mem _ he),
      live_hear_of_ne fun e => h d List.mem_cons_self e.symm]

/-- Where all deltas on an identity say the same, that is what holds of it afterwards. -/
theorem live_hearAll_of_exists {v : Option Tuple} (hd : ∃ d ∈ ds, d.id = i)
    (h : ∀ d ∈ ds, d.id = i → d.tuple? = v) : (x.hearAll ds).live i = v := by
  induction ds generalizing x with
  | nil => simp at hd
  | cons e ds ih =>
    have hds : ∀ d ∈ ds, d.id = i → d.tuple? = v := fun d hd => h d (List.mem_cons_of_mem _ hd)
    rw [hearAll_cons]
    by_cases hm : ∃ d ∈ ds, d.id = i
    · exact ih hm hds
    · obtain ⟨d, hd, hi⟩ := hd
      rcases List.mem_cons.1 hd with rfl | hd
      · rw [live_hearAll_of_forall_ne fun e he hid => hm ⟨e, he, hid⟩, ← hi, live_hear_self]
        exact h d List.mem_cons_self hi
      · exact absurd ⟨d, hd, hi⟩ hm

theorem over_empty (l : Layout) (known : Fact → Prop) : Over l known empty := fun _ _ h => by cases h

theorem Over.hear {l : Layout} {known : Fact → Prop} (h : x.Over l known)
    (hd : ∀ t, d.tuple? = some t → t.Over l known) : (x.hear d).Over l known := by
  intro i t ht
  by_cases hi : i = d.id
  · subst hi
    rw [live_hear_self] at ht
    exact ⟨Delta.id_eq_of_tuple? ht, hd t ht⟩
  · rw [live_hear_of_ne hi] at ht
    exact h i t ht

end Feed

/-! ## Answers -/

section

variable {S α : Type} {fn : S → Tuple → Checked α} {before now : S} {x : Feed} {t : Tuple} {a : α}
  {memo memo' : TupleId → Option α}

/-- What a node was told about `t` when it asked last: now, or before if no delta has named `t`
since. -/
def Answers (fn : S → Tuple → Checked α) (before now : S) (x : Feed) (t : Tuple) (a : α) : Prop :=
  fn now t = .ok a ∨ (t.id ∉ x.touched ∧ fn before t = .ok a)

/-- What no delta has named is answered now as it was before. -/
def Steady (fn : S → Tuple → Checked α) (before now : S) (x : Feed) : Prop :=
  ∀ i t, x.live i = some t → i ∉ x.touched → fn before t = fn now t

theorem Answers.hear {d : Delta} (h : Answers fn before now x t a) (hd : t.id ≠ d.id) :
    Answers fn before now (x.hear d) t a := by
  rcases h with h | ⟨hx, h⟩
  · exact .inl h
  · exact .inr ⟨fun hm => (Feed.mem_touched_hear.1 hm).elim hd hx, h⟩

/-- Where the others would not have changed, a latest answer is that of now. -/
theorem Answers.current (h : Answers fn before now x t a) (hx : Steady fn before now x)
    (ht : x.live t.id = some t) : fn now t = .ok a := by
  rcases h with h | ⟨hn, h⟩
  · exact h
  · rw [← hx t.id t ht hn, h]

/-- A node recalls the latest answer on each live tuple and nothing else. -/
structure Recalls (fn : S → Tuple → Checked α) (before now : S) (memo : TupleId → Option α)
    (x : Feed) : Prop where
  keyed : ∀ i t, x.live i = some t → t.id = i
  absent : ∀ i, x.live i = none → memo i = none
  present : ∀ i t, x.live i = some t → ∃ a, memo i = some a ∧ Answers fn before now x t a

namespace Recalls

theorem empty (fn : S → Tuple → Checked α) (before now : S) :
    Recalls fn before now (fun _ => none) Feed.empty where
  keyed _ _ h := by cases h
  absent _ _ := rfl
  present _ _ h := by cases h

theorem put (h : Recalls fn before now memo x) (ha : fn now t = .ok a)
    (hr : ∀ i, memo' i = if i = t.id then some a else memo i) :
    Recalls fn before now memo' (x.hear (.insert t)) where
  keyed i u hu := by
    by_cases hi : i = t.id
    · subst hi
      rw [Feed.live_hear_insert] at hu
      cases hu
      rfl
    · rw [Feed.live_hear_of_ne hi] at hu
      exact h.keyed i u hu
  absent i hi := by
    by_cases hit : i = t.id
    · subst hit
      rw [Feed.live_hear_insert] at hi
      cases hi
    · rw [Feed.live_hear_of_ne hit] at hi
      rw [hr, if_neg hit, h.absent i hi]
  present i u hu := by
    by_cases hit : i = t.id
    · subst hit
      rw [Feed.live_hear_insert] at hu
      cases hu
      exact ⟨a, by rw [hr, if_pos rfl], .inl ha⟩
    · rw [Feed.live_hear_of_ne hit] at hu
      obtain ⟨b, hb, hans⟩ := h.present i u hu
      exact ⟨b, by rw [hr, if_neg hit, hb], hans.hear (h.keyed i u hu ▸ hit)⟩

theorem drop (h : Recalls fn before now memo x) (j : TupleId)
    (hr : ∀ i, memo' i = if i = j then none else memo i) :
    Recalls fn before now memo' (x.hear (.retract j)) where
  keyed i u hu := by
    by_cases hi : i = j
    · subst hi
      rw [Feed.live_hear_retract] at hu
      cases hu
    · rw [Feed.live_hear_of_ne hi] at hu
      exact h.keyed i u hu
  absent i hi := by
    by_cases hij : i = j
    · rw [hr, if_pos hij]
    · rw [Feed.live_hear_of_ne hij] at hi
      rw [hr, if_neg hij, h.absent i hi]
  present i u hu := by
    by_cases hij : i = j
    · subst hij
      rw [Feed.live_hear_retract] at hu
      cases hu
    · rw [Feed.live_hear_of_ne hij] at hu
      obtain ⟨b, hb, hans⟩ := h.present i u hu
      exact ⟨b, by rw [hr, if_neg hij, hb], hans.hear (h.keyed i u hu ▸ hij)⟩

theorem live_isSome (h : Recalls fn before now memo x) {i : TupleId} (hi : memo i = some a) :
    ∃ t, x.live i = some t := by
  cases ht : x.live i with
  | none => rw [h.absent i ht] at hi; cases hi
  | some t => exact ⟨t, rfl⟩

/-- All answers are those of now if the others would not have changed. -/
theorem current (h : Recalls fn before now memo x) (hx : Steady fn before now x) {i : TupleId}
    (ht : x.live i = some t) : ∃ a, memo i = some a ∧ fn now t = .ok a := by
  obtain ⟨a, ha, hans⟩ := h.present i t ht
  exact ⟨a, ha, hans.current hx ((congrArg x.live (h.keyed i t ht)).trans ht)⟩

/-- Once all answers are those of now, they can be relied on from then on. -/
theorem rested (h : Recalls fn before now memo x) (hx : Steady fn before now x) (next : S) :
    Recalls fn now next memo x.rested where
  keyed := h.keyed
  absent := h.absent
  present i t ht := by
    obtain ⟨a, ha, hnow⟩ := h.current hx ht
    exact ⟨a, ha, .inr ⟨Set.notMem_empty _, hnow⟩⟩

end Recalls

end

end PlanSearch
