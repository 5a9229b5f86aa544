import PlanSearch.Move

/-!
# Slots as lenses

A variable reads and writes one cell of every entity. The laws of lenses say that it does nothing
else: what is written is read back, other slots stay as they are, writes to different slots commute,
and to write what is there changes nothing. `Lenses` states them up to a notion of plans that count
as the same, for which a second write may hide the first.

    Lawful X → Lenses X (Agree X)                                        (Lawful.lenses)
    Lawful X → Overwrites X → Lenses X (· = ·)                           (Lawful.lenses_eq)
    Lawful X → Overwrites X → ScoreCell X → Lenses X Plan.SameButScore   (Lawful.lenses_sameButScore)
    Lenses X same → same (restore p as (writeAll ws p)) p                (Lenses.restore_writeAll)
-/

namespace PlanSearch

variable {S V : Type} {sh : Shape} [Plan S sh]

/-- The fact exists in the plan. -/
def Plan.Has (plan : S) (f : Fact) : Prop := f.index < Plan.entityCount plan f.family

namespace Slot

def set (a : Slot S V) (plan : S) (value : Option V) : S := a.cell.set plan a.entity value

def fact (a : Slot S V) : Fact := ⟨a.cell.family, a.entity⟩

/-- The slot belongs to one of the variables `X` and to an entity that exists. -/
def Of (X : Variable S V → Prop) (plan : S) (a : Slot S V) : Prop :=
  X a.cell ∧ Plan.Has plan a.fact

theorem sameAs_iff {a b : Slot S V} : a.sameAs b ↔
    a.entity = b.entity ∧ a.cell.family = b.cell.family ∧ a.cell.name = b.cell.name := by
  unfold sameAs Variable.sameAs
  simp only [Bool.and_eq_true, beq_iff_eq]

theorem sameAs_self (a : Slot S V) : a.sameAs a := sameAs_iff.2 ⟨rfl, rfl, rfl⟩

theorem sameAs_trans {a b c : Slot S V} (hab : a.sameAs b) (hbc : b.sameAs c) : a.sameAs c := by
  rw [sameAs_iff] at hab hbc ⊢
  exact ⟨hab.1.trans hbc.1, hab.2.1.trans hbc.2.1, hab.2.2.trans hbc.2.2⟩

theorem sameAs_symm {a b : Slot S V} (h : a.sameAs b) : b.sameAs a := by
  rw [sameAs_iff] at h ⊢
  exact ⟨h.1.symm, h.2.1.symm, h.2.2.symm⟩

theorem mem_of_mem_distinct {as : List (Slot S V)} {a : Slot S V} (h : a ∈ distinct as) :
    a ∈ as := by
  induction as with
  | nil => cases h
  | cons b as ih =>
    rcases List.mem_cons.1 h with rfl | h
    · exact List.mem_cons_self
    · exact List.mem_cons_of_mem _ (ih (List.mem_filter.1 h).1)

/-- Every slot has a representative among the distinct ones. -/
theorem exists_mem_distinct {as : List (Slot S V)} {a : Slot S V} (h : a ∈ as) :
    ∃ b ∈ distinct as, a.sameAs b := by
  induction as with
  | nil => cases h
  | cons c as ih =>
    rcases List.mem_cons.1 h with rfl | h
    · exact ⟨a, List.mem_cons_self, a.sameAs_self⟩
    · obtain ⟨b, hb, hab⟩ := ih h
      by_cases hcb : c.sameAs b
      · exact ⟨c, List.mem_cons_self, sameAs_trans hab (sameAs_symm hcb)⟩
      · refine ⟨b, List.mem_cons_of_mem _ (List.mem_filter.2 ⟨hb, ?_⟩), hab⟩
        simpa using hcb

end Slot

/-! ## Laws -/

/-- The slots of the variables `X` are cells of their own, named by a family, a name and an
entity. -/
structure Cells (X : Variable S V → Prop) : Prop where
  eq_of_sameAs : ∀ {x y : Variable S V}, X x → X y → x.sameAs y → x = y
  entityCount_set : ∀ {p : S} {a : Slot S V} (v : Option V), a.Of X p → ∀ family,
    Plan.entityCount (a.set p v) family = Plan.entityCount p family
  /-- A write is read back. -/
  get_set : ∀ {p : S} {a : Slot S V} (v : Option V), a.Of X p → a.get (a.set p v) = v
  /-- A write leaves other slots alone. -/
  get_set_of_ne : ∀ {p : S} {a b : Slot S V} (v : Option V), a.Of X p → b.Of X p →
    ¬ a.sameAs b → b.get (a.set p v) = b.get p

/-- The variables `X` are lenses. -/
structure Lawful (X : Variable S V → Prop) : Prop extends Cells X where
  /-- Writes to different slots commute. -/
  set_comm : ∀ {p : S} {a b : Slot S V} (v w : Option V), a.Of X p → b.Of X p →
    ¬ a.sameAs b → b.set (a.set p v) w = a.set (b.set p w) v
  /-- To write back what was read changes nothing. -/
  set_get : ∀ {p : S} {a : Slot S V}, a.Of X p → a.set p (a.get p) = p

/-- A second write to a slot hides the first. -/
def Overwrites (X : Variable S V → Prop) : Prop :=
  ∀ {p : S} {a : Slot S V} (v w : Option V), a.Of X p → a.set (a.set p v) w = a.set p w

/-- The plans have the same entities, with the same values of the variables `X`. -/
structure Agree (X : Variable S V → Prop) (p q : S) : Prop where
  entityCount : ∀ family, Plan.entityCount p family = Plan.entityCount q family
  get : ∀ a : Slot S V, a.Of X p → a.get p = a.get q

/-- The variables `X` are lenses on plans up to `same`. -/
structure Lenses (X : Variable S V → Prop) (same : S → S → Prop) : Prop extends Cells X where
  equivalence : Equivalence same
  agree : ∀ {p q : S}, same p q → Agree X p q
  set_congr : ∀ {p q : S} {a : Slot S V} (v : Option V), same p q → a.Of X p →
    same (a.set p v) (a.set q v)
  set_comm : ∀ {p : S} {a b : Slot S V} (v w : Option V), a.Of X p → b.Of X p →
    ¬ a.sameAs b → same (b.set (a.set p v) w) (a.set (b.set p w) v)
  set_set : ∀ {p : S} {a : Slot S V} (v w : Option V), a.Of X p →
    same (a.set (a.set p v) w) (a.set p w)
  set_get : ∀ {p : S} {a : Slot S V}, a.Of X p → same (a.set p (a.get p)) p

variable {X : Variable S V → Prop} {same : S → S → Prop} {p q r : S} {a b : Slot S V}
  {as : List (Slot S V)}

namespace Agree

theorem refl (X : Variable S V → Prop) (p : S) : Agree X p p := ⟨fun _ => rfl, fun _ _ => rfl⟩

theorem has_iff (h : Agree X p q) (f : Fact) : Plan.Has p f ↔ Plan.Has q f := by
  unfold Plan.Has
  rw [h.entityCount]

theorem of_iff (h : Agree X p q) (a : Slot S V) : a.Of X p ↔ a.Of X q :=
  and_congr_right fun _ => h.has_iff _

theorem symm (h : Agree X p q) : Agree X q p :=
  ⟨fun family => (h.entityCount family).symm, fun a ha => (h.get a ((h.of_iff a).2 ha)).symm⟩

theorem trans (h : Agree X p q) (h' : Agree X q r) : Agree X p r :=
  ⟨fun family => (h.entityCount family).trans (h'.entityCount family),
    fun a ha => (h.get a ha).trans (h'.get a ((h.of_iff a).1 ha))⟩

end Agree

namespace Cells

theorem of_set (h : Cells X) (v : Option V) (ha : a.Of X p) (b : Slot S V) :
    b.Of X (a.set p v) ↔ b.Of X p := by
  unfold Slot.Of Plan.Has
  rw [h.entityCount_set v ha]

theorem slot_eq_of_sameAs (h : Cells X) (ha : X a.cell) (hb : X b.cell) (hab : a.sameAs b) :
    a = b := by
  unfold Slot.sameAs at hab
  rw [Bool.and_eq_true, beq_iff_eq] at hab
  obtain ⟨x, e⟩ := a
  obtain ⟨y, e'⟩ := b
  obtain rfl : e = e' := hab.1
  obtain rfl : x = y := h.eq_of_sameAs ha hb hab.2
  rfl

/-- What a slot holds after a write. -/
theorem get_set_eq (h : Cells X) (v : Option V) (ha : a.Of X p) (hb : b.Of X p) :
    b.get (a.set p v) = if a.sameAs b then v else b.get p := by
  split
  · next hab =>
    rw [← h.slot_eq_of_sameAs ha.1 hb.1 hab]
    exact h.get_set v ha
  · next hab => exact h.get_set_of_ne v ha hb hab

theorem agree_set (h : Cells X) (v : Option V) (hpq : Agree X p q) (ha : a.Of X p) :
    Agree X (a.set p v) (a.set q v) := by
  have ha' := (hpq.of_iff a).1 ha
  refine ⟨fun family => ?_, fun b hb => ?_⟩
  · rw [h.entityCount_set v ha, h.entityCount_set v ha', hpq.entityCount]
  · have hb' := (h.of_set v ha b).1 hb
    rw [h.get_set_eq v ha hb', h.get_set_eq v ha' ((hpq.of_iff b).1 hb'), hpq.get b hb']

theorem agree_set_set (h : Cells X) (v w : Option V) (ha : a.Of X p) :
    Agree X (a.set (a.set p v) w) (a.set p w) := by
  have ha' := (h.of_set v ha a).2 ha
  refine ⟨fun family => ?_, fun b hb => ?_⟩
  · rw [h.entityCount_set w ha', h.entityCount_set v ha, h.entityCount_set w ha]
  · have hb' := (h.of_set w ha' b).1 hb
    have hb'' := (h.of_set v ha b).1 hb'
    rw [h.get_set_eq w ha' hb', h.get_set_eq w ha hb'', h.get_set_eq v ha hb'']
    split <;> rfl

/-- Writes to different slots commute, as far as can be seen. -/
theorem agree_set_comm (h : Cells X) (v w : Option V) (ha : a.Of X p) (hb : b.Of X p)
    (hab : ¬a.sameAs b) : Agree X (b.set (a.set p v) w) (a.set (b.set p w) v) := by
  have ha' := (h.of_set w hb a).2 ha
  have hb' := (h.of_set v ha b).2 hb
  refine ⟨fun family => ?_, fun c hc => ?_⟩
  · rw [h.entityCount_set w hb', h.entityCount_set v ha, h.entityCount_set v ha',
      h.entityCount_set w hb]
  · have hca := (h.of_set w hb' c).1 hc
    have hcp := (h.of_set v ha c).1 hca
    rw [h.get_set_eq w hb' hca, h.get_set_eq v ha hcp,
      h.get_set_eq v ha' ((h.of_set w hb c).2 hcp), h.get_set_eq w hb hcp]
    by_cases hac : a.sameAs c
    · have hbc : ¬b.sameAs c := fun hbc => hab (Slot.sameAs_trans hac (Slot.sameAs_symm hbc))
      rw [if_neg hbc, if_pos hac, if_pos hac]
    · rw [if_neg hac, if_neg hac]

theorem agree_set_get (h : Cells X) (ha : a.Of X p) : Agree X (a.set p (a.get p)) p := by
  refine ⟨h.entityCount_set _ ha, fun b hb => ?_⟩
  have hb' := (h.of_set _ ha b).1 hb
  rw [h.get_set_eq _ ha hb']
  split
  · next hab => rw [h.slot_eq_of_sameAs ha.1 hb'.1 hab]
  · rfl

/-- Cells are lenses up to what can be seen of a plan, where a second write always hides the
first. -/
theorem lenses (h : Cells X) : Lenses X (Agree X) where
  toCells := h
  equivalence := ⟨Agree.refl X, Agree.symm, Agree.trans⟩
  agree := id
  set_congr := h.agree_set
  set_comm := h.agree_set_comm
  set_set := h.agree_set_set
  set_get := h.agree_set_get

end Cells

namespace Lawful

theorem lenses (h : Lawful X) : Lenses X (Agree X) := h.toCells.lenses

theorem lenses_eq (h : Lawful X) (ho : Overwrites X) : Lenses X (· = ·) where
  toCells := h.toCells
  equivalence := ⟨fun _ => rfl, Eq.symm, Eq.trans⟩
  agree e := e ▸ Agree.refl X _
  set_congr v e _ := by rw [e]
  set_comm := h.set_comm
  set_set := ho
  set_get := h.set_get

end Lawful

/-- The stored score is a cell of its own, beside those of the variables `X`. -/
structure ScoreCell (X : Variable S V → Prop) : Prop where
  setScore_setScore : ∀ (a c : Option (Score sh)) (p : S),
    Plan.setScore a (Plan.setScore c p) = Plan.setScore a p
  entityCount_setScore : ∀ (a : Option (Score sh)) (p : S) (family : Nat),
    Plan.entityCount (Plan.setScore a p) family = Plan.entityCount p family
  get_setScore : ∀ {p : S} {a : Slot S V} (c : Option (Score sh)), a.Of X p →
    a.get (Plan.setScore c p) = a.get p
  set_setScore : ∀ {p : S} {a : Slot S V} (c : Option (Score sh)) (v : Option V), a.Of X p →
    a.set (Plan.setScore c p) v = Plan.setScore c (a.set p v)

/-- The plans differ at most in the score that is stored. -/
def Plan.SameButScore (p q : S) : Prop := Plan.setScore none p = Plan.setScore none q

namespace ScoreCell

theorem entityCount_eq (hs : ScoreCell X) (e : Plan.SameButScore p q) (family : Nat) :
    Plan.entityCount p family = Plan.entityCount q family := by
  rw [← hs.entityCount_setScore none p, e, hs.entityCount_setScore]

theorem of_iff (hs : ScoreCell X) (e : Plan.SameButScore p q) (a : Slot S V) :
    a.Of X p ↔ a.Of X q := by
  unfold Slot.Of Plan.Has
  rw [hs.entityCount_eq e]

end ScoreCell

structure Row where
  cells : List (Option Nat)
  score : Option (Score .simple) := none

namespace Row

instance : Plan Row .simple where
  score := Row.score
  setScore score row := { row with score }
  entityCount row family := if family = 0 then row.cells.length else 0

def cell : Variable Row Nat where
  family := 0
  name := "cell"
  get row e := row.cells[e]?.join
  set row e v := { row with cells := row.cells.set e v }

theorem of_iff {row : Row} {a : Slot Row Nat} :
    a.Of (· = cell) row ↔ a.cell = cell ∧ a.entity < row.cells.length := by
  refine and_congr_right fun hcell => ?_
  show a.entity < (if a.cell.family = 0 then row.cells.length else 0) ↔ _
  rw [hcell]
  exact Iff.rfl

theorem lawful : Lawful (· = cell) where
  eq_of_sameAs hx hy _ := hx.trans hy.symm
  entityCount_set {row a} v ha family := by
    show (if family = 0 then (a.cell.set row a.entity v).cells.length else 0) =
      if family = 0 then row.cells.length else 0
    rw [ha.1]
    show (if family = 0 then (row.cells.set a.entity v).length else 0) = _
    rw [List.length_set]
  get_set {row a} v ha := by
    obtain ⟨hcell, hlt⟩ := of_iff.1 ha
    unfold Slot.get Slot.set
    rw [hcell]
    show ((row.cells.set a.entity v)[a.entity]?).join = v
    rw [List.getElem?_set_self hlt]
    rfl
  get_set_of_ne {row a b} v ha hb hab := by
    have hne : a.entity ≠ b.entity := fun e =>
      hab (Slot.sameAs_iff.2 ⟨e, by rw [ha.1, hb.1], by rw [ha.1, hb.1]⟩)
    unfold Slot.get Slot.set
    rw [ha.1, hb.1]
    show ((row.cells.set a.entity v)[b.entity]?).join = row.cells[b.entity]?.join
    rw [List.getElem?_set_ne hne]
  set_comm {row a b} v w ha hb hab := by
    have hne : a.entity ≠ b.entity := fun e =>
      hab (Slot.sameAs_iff.2 ⟨e, by rw [ha.1, hb.1], by rw [ha.1, hb.1]⟩)
    unfold Slot.set
    rw [ha.1, hb.1]
    show (⟨(row.cells.set a.entity v).set b.entity w, row.score⟩ : Row) =
      ⟨(row.cells.set b.entity w).set a.entity v, row.score⟩
    rw [List.set_comm _ _ hne]
  set_get {row a} ha := by
    obtain ⟨hcell, hlt⟩ := of_iff.1 ha
    unfold Slot.get Slot.set
    rw [hcell]
    show (⟨row.cells.set a.entity row.cells[a.entity]?.join, row.score⟩ : Row) = row
    rw [List.getElem?_eq_getElem hlt, Option.join_some, List.set_getElem_self]

theorem overwrites : Overwrites (· = cell) := fun {row a} v w ha => by
  unfold Slot.set
  rw [ha.1]
  show (⟨(row.cells.set a.entity v).set a.entity w, row.score⟩ : Row) =
    ⟨row.cells.set a.entity w, row.score⟩
  rw [List.set_set]

theorem scoreCell : ScoreCell (· = cell) where
  setScore_setScore _ _ _ := rfl
  entityCount_setScore _ _ _ := rfl
  get_setScore {row a} c ha := by
    unfold Slot.get
    rw [ha.1]
    rfl
  set_setScore {row a} c v ha := by
    unfold Slot.set
    rw [ha.1]
    rfl

theorem agree_setScore (score : Option (Score .simple)) (row : Row) :
    Agree (· = cell) (Plan.setScore score row) row := by
  refine ⟨fun _ => rfl, fun a ha => ?_⟩
  unfold Slot.get
  rw [ha.1]
  rfl

theorem cells_eq_of_agree {p q : Row} (h : Agree (· = cell) p q) : p.cells = q.cells := by
  have hlength : p.cells.length = q.cells.length := h.entityCount 0
  refine List.ext_getElem hlength fun e hp hq => ?_
  have hget : p.cells[e]?.join = q.cells[e]?.join := h.get ⟨cell, e⟩ (of_iff.2 ⟨rfl, hp⟩)
  rw [List.getElem?_eq_getElem hp, List.getElem?_eq_getElem hq] at hget
  exact hget

end Row

/-! ## Writing and restoring -/

/-- Writes values to slots, one after another. -/
def writeAll (ws : List (Slot S V × Option V)) (q : S) : S := ws.foldl (fun q w => w.1.set q w.2) q

/-- Writes the values that the slots have in `p`. -/
def restore (p : S) (as : List (Slot S V)) (q : S) : S := as.foldl (fun q a => a.set q (a.get p)) q

namespace Cells

theorem of_writeAll (h : Cells X) {ws : List (Slot S V × Option V)} (hw : ∀ w ∈ ws, w.1.Of X q)
    (b : Slot S V) : b.Of X (writeAll ws q) ↔ b.Of X q := by
  induction ws generalizing q with
  | nil => exact Iff.rfl
  | cons w ws ih =>
    have hset := h.of_set w.2 (hw w List.mem_cons_self)
    exact (ih fun w' hw' => (hset w'.1).2 (hw w' (List.mem_cons_of_mem _ hw'))).trans (hset b)

end Cells

namespace Lenses

theorem of_iff (h : Lenses X same) (hpq : same p q) (a : Slot S V) : a.Of X p ↔ a.Of X q :=
  (h.agree hpq).of_iff a

theorem writeAll_congr (h : Lenses X same) {ws : List (Slot S V × Option V)}
    (hw : ∀ w ∈ ws, w.1.Of X p) (hpq : same p q) : same (writeAll ws p) (writeAll ws q) := by
  induction ws generalizing p q with
  | nil => exact hpq
  | cons w ws ih =>
    have hwp := hw w List.mem_cons_self
    exact ih (fun w' hw' => (h.of_set w.2 hwp w'.1).2 (hw w' (List.mem_cons_of_mem _ hw')))
      (h.set_congr w.2 hpq hwp)

theorem restore_congr (h : Lenses X same) (ha : ∀ a ∈ as, a.Of X q) (hqr : same q r) :
    same (restore p as q) (restore p as r) := by
  induction as generalizing q r with
  | nil => exact hqr
  | cons a as ih =>
    have haq := ha a List.mem_cons_self
    exact ih (fun b hb => (h.of_set _ haq b).2 (ha b (List.mem_cons_of_mem _ hb)))
      (h.set_congr _ hqr haq)

theorem restore_self (h : Lenses X same) (ha : ∀ a ∈ as, a.Of X p) : same (restore p as p) p := by
  induction as with
  | nil => exact h.equivalence.refl p
  | cons a as ih =>
    have hap := ha a List.mem_cons_self
    have has : ∀ b ∈ as, b.Of X p := fun b hb => ha b (List.mem_cons_of_mem _ hb)
    show same (restore p as (a.set p (a.get p))) p
    exact h.equivalence.trans
      (h.restore_congr (fun b hb => (h.of_set _ hap b).2 (has b hb)) (h.set_get hap)) (ih has)

/-- A write is forgotten if its slot is restored. -/
theorem restore_set (h : Lenses X same) (v : Option V) (has : ∀ a ∈ as, a.Of X q) (hb : b.Of X q)
    (hmem : ∃ a ∈ as, b.sameAs a) : same (restore p as (b.set q v)) (restore p as q) := by
  induction as generalizing q with
  | nil =>
    obtain ⟨a, ha, -⟩ := hmem
    cases ha
  | cons a as ih =>
    have ha := has a List.mem_cons_self
    have has' : ∀ c ∈ as, c.Of X q := fun c hc => has c (List.mem_cons_of_mem _ hc)
    by_cases hba : b.sameAs a
    · obtain rfl := h.slot_eq_of_sameAs hb.1 ha.1 hba
      show same (restore p as (b.set (b.set q v) _)) (restore p as (b.set q _))
      refine h.restore_congr (fun c hc => ?_) (h.set_set v _ hb)
      rw [h.of_set _ ((h.of_set v hb b).2 hb), h.of_set v hb]
      exact has' c hc
    · -- The write moves behind that of another slot.
      have hmem' : ∃ c ∈ as, b.sameAs c := by
        obtain ⟨c, hc, hbc⟩ := hmem
        rcases List.mem_cons.1 hc with rfl | hc
        · exact absurd hbc hba
        · exact ⟨c, hc, hbc⟩
      have hset : ∀ c : Slot S V, c.Of X (a.set q (a.get p)) ↔ c.Of X q := h.of_set _ ha
      show same (restore p as (a.set (b.set q v) _)) (restore p as (a.set q _))
      refine h.equivalence.trans (h.restore_congr (fun c hc => ?_) (h.set_comm v _ hb ha hba))
        (ih (fun c hc => (hset c).2 (has' c hc)) ((hset b).2 hb) hmem')
      rw [h.of_set _ ((h.of_set v hb a).2 ha), h.of_set v hb]
      exact has' c hc

theorem restore_writeAll (h : Lenses X same) {ws : List (Slot S V × Option V)}
    (has : ∀ a ∈ as, a.Of X q) (hw : ∀ w ∈ ws, w.1.Of X q ∧ ∃ a ∈ as, w.1.sameAs a) :
    same (restore p as (writeAll ws q)) (restore p as q) := by
  induction ws generalizing q with
  | nil => exact h.equivalence.refl _
  | cons w ws ih =>
    obtain ⟨hwq, hmem⟩ := hw w List.mem_cons_self
    have hset := h.of_set w.2 hwq
    refine h.equivalence.trans (ih (fun a ha => (hset a).2 (has a ha)) fun w' hw' => ?_)
      (h.restore_set w.2 has hwq hmem)
    obtain ⟨hw'q, hmem'⟩ := hw w' (List.mem_cons_of_mem _ hw')
    exact ⟨(hset w'.1).2 hw'q, hmem'⟩

end Lenses

end PlanSearch
