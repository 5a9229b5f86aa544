import PlanSearch.Proofs.Phase.Picking
import PlanSearch.Proofs.Search.Account
import PlanSearch.Proofs.Search.LocalSearch

/-!
# What candidates change

Whether a move can be done is asked of the plan before it: some part of it, by itself, has to change
a value there. A move without such a part changes nothing, in whatever way its parts overlap, so
nothing that changes a value is passed over as illegal. The other way round, parts may take each
other back; a part lasts if no part before it writes what it reads and no part behind it writes what
it writes, and a move with a part that lasts changes a value.

    m.Changes X w → m.isDoable (plan w)                                    (Move.isDoable_of_changes)
    m.Lasting (plan w) → m.Changes X w                                     (Move.changes_of_lasting)
    parts with slots of their own → (m.isDoable (plan w) ↔ m.Changes X w)  (Move.isDoable_iff_changes)
    the candidates of a step, by whether they can be done                  (LocalSearch.Sifted.audit)
-/

namespace PlanSearch

open Workspace

variable {W S V : Type} {sh : Shape}

/-! ## Parts that last -/

/-- No slot of the first list is one of the second. -/
def Slot.Apart (as bs : List (Slot S V)) : Prop := ∀ a ∈ as, ∀ b ∈ bs, ¬a.sameAs b

theorem Slot.Apart.symm {as bs : List (Slot S V)} (h : Slot.Apart as bs) : Slot.Apart bs as :=
  fun b hb a ha hba => h a ha b hb (Slot.sameAs_symm hba)

/-- The slots whose values decide what the leaf writes. -/
def Leaf.reads : Leaf S V → List (Slot S V)
  | change _ _ _ => []
  | swap x left right => [⟨x, left⟩, ⟨x, right⟩]

theorem Leaf.mem_slots_of_mem_reads {m : Leaf S V} {a : Slot S V} (h : a ∈ m.reads) :
    a ∈ m.slots := by
  cases m with
  | change x e v => cases h
  | swap x left right => exact h

variable [Plan S sh] {X : Variable S V → Prop} {same : S → S → Prop} {p q : S} {m : Move S V}
  {leaves : List (Leaf S V)}

/-- A part can be done by itself, no part before it writes what it reads, and no part behind it
writes what it writes. -/
def Move.Lasting [DecidableEq V] (p : S) (m : Move S V) : Prop :=
  ∃ before part behind, m.leaves = before ++ part :: behind ∧ part.isDoable p ∧
    (∀ leaf ∈ before, Slot.Apart part.reads leaf.slots) ∧
    ∀ leaf ∈ behind, Slot.Apart part.slots leaf.slots

/-- Doing the move changes the value of one of the variables `X`. -/
def Move.Changes [Workspace W S sh] (X : Variable S V → Prop) (m : Move S V) (w : W) : Prop :=
  ∃ a : Slot S V, a.Of X (plan w) ∧ a.get (plan (m.apply w)) ≠ a.get (plan w)

/-! ## What writes leave alone -/

theorem Cells.get_writeAll_of_ne (h : Cells X) {ws : List (Slot S V × Option V)} {a : Slot S V}
    (ha : a.Of X p) (hw : ∀ w ∈ ws, w.1.Of X p ∧ ¬w.1.sameAs a) :
    a.get (writeAll ws p) = a.get p := by
  induction ws generalizing p with
  | nil => rfl
  | cons w ws ih =>
    obtain ⟨⟨hof, hne⟩, hrest⟩ := List.forall_mem_cons.1 hw
    have hset := h.of_set w.2 hof
    refine (ih ((hset a).2 ha) fun w' hw' => ?_).trans (h.get_set_of_ne w.2 hof ha hne)
    exact ⟨(hset w'.1).2 (hrest w' hw').1, (hrest w' hw').2⟩

/-- Leaves leave the slots alone that they do not write. -/
theorem Lenses.get_foldl_on (h : Lenses X same) {as : List (Slot S V)} {a : Slot S V} (ha : a ∈ as)
    (haX : a.Of X p) (hm : ∀ leaf ∈ leaves, ∀ b ∈ leaf.slots, b.Of X p)
    (hapart : ∀ leaf ∈ leaves, Slot.Apart as leaf.slots) :
    a.get (leaves.foldl (fun p leaf => leaf.on p) p) = a.get p := by
  obtain ⟨ws, he, hws⟩ := h.foldl_on_eq_writeAll hm
  rw [he]
  refine h.get_writeAll_of_ne haX fun w hw => ?_
  obtain ⟨leaf, hleaf, hslot⟩ := List.mem_flatMap.1 (hws w hw)
  exact ⟨hm leaf hleaf _ hslot, fun hwa => hapart leaf hleaf a ha _ hslot (Slot.sameAs_symm hwa)⟩

/-! ## Moves that cannot be done -/

namespace Leaf

variable [DecidableEq V] {m : Leaf S V}

/-- A leaf over open slots that cannot be done writes to its slots what they hold. -/
theorem on_eq_restore (hopen : m.Open X p) (hget : ∀ a ∈ m.slots, a.get q = a.get p)
    (hdo : m.isDoable p = false) : m.on q = restore q m.slots q := by
  have hisOpen : ∀ a ∈ m.slots, isOpen a.cell p a.entity = true := fun a ha => (hopen a ha).isOpen
  cases m with
  | change x e v =>
    have hq : x.get q e = x.get p e := hget ⟨x, e⟩ List.mem_cons_self
    have hv : x.get p e = v := by
      unfold isDoable at hdo
      dsimp only at hdo
      rw [hisOpen ⟨x, e⟩ List.mem_cons_self] at hdo
      simpa using hdo
    show x.set q e v = x.set q e (x.get q e)
    rw [hq, hv]
  | swap x left right =>
    have hl := List.mem_cons_self (a := (⟨x, left⟩ : Slot S V)) (l := [⟨x, right⟩])
    have hr := List.mem_cons_of_mem (⟨x, left⟩ : Slot S V) (List.mem_singleton_self ⟨x, right⟩)
    have hql : x.get q left = x.get p left := hget ⟨x, left⟩ hl
    have hqr : x.get q right = x.get p right := hget ⟨x, right⟩ hr
    have hequal : x.get p left = x.get p right := by
      unfold isDoable at hdo
      dsimp only at hdo
      rw [hisOpen ⟨x, left⟩ hl, hisOpen ⟨x, right⟩ hr] at hdo
      by_cases hlr : left = right
      · rw [hlr]
      · simpa [hlr] using hdo
    show x.set (x.set q left (x.get q right)) right (x.get q left) =
      x.set (x.set q left (x.get q left)) right (x.get q right)
    rw [hql, hqr, hequal]

/-- A leaf that can be done gives one of its slots another value, provided that what it reads is
what it was. -/
theorem get_on_ne (h : Lenses X same) (hm : ∀ a ∈ m.slots, a.Of X q)
    (hget : ∀ a ∈ m.reads, a.get q = a.get p) (hdo : m.isDoable p) :
    ∃ a ∈ m.slots, a.get (m.on q) ≠ a.get p := by
  cases m with
  | change x e v =>
    have hne : x.get p e ≠ v := by
      unfold isDoable at hdo
      dsimp only at hdo
      rw [Bool.and_eq_true, bne_iff_ne] at hdo
      exact hdo.2
    refine ⟨⟨x, e⟩, List.mem_cons_self, ?_⟩
    have hset : x.get ((change x e v).on q) e = v := h.get_set v (hm _ List.mem_cons_self)
    show x.get ((change x e v).on q) e ≠ x.get p e
    rw [hset]
    exact hne.symm
  | swap x left right =>
    unfold isDoable at hdo
    dsimp only at hdo
    simp only [Bool.and_eq_true, bne_iff_ne] at hdo
    obtain ⟨⟨⟨hlr, -⟩, -⟩, hne⟩ := hdo
    have hl := hm ⟨x, left⟩ List.mem_cons_self
    have hr := hm ⟨x, right⟩ (List.mem_cons_of_mem _ List.mem_cons_self)
    have hqr : x.get q right = x.get p right :=
      hget ⟨x, right⟩ (List.mem_cons_of_mem _ List.mem_cons_self)
    have hset := h.of_set (x.get q right) hl
    have hleft : x.get ((swap x left right).on q) left = x.get q right := by
      refine (h.get_set_of_ne (x.get q left) ((hset _).2 hr) ((hset _).2 hl) fun hsame => ?_).trans
        (h.get_set (x.get q right) hl)
      exact hlr (Slot.sameAs_iff.1 hsame).1.symm
    refine ⟨⟨x, left⟩, List.mem_cons_self, ?_⟩
    show x.get ((swap x left right).on q) left ≠ x.get p left
    rw [hleft, hqr]
    exact hne.symm

end Leaf

/-- Leaves that cannot be done change nothing, one after another. -/
theorem Lenses.foldl_on_same [DecidableEq V] (h : Lenses X same)
    (hopen : ∀ leaf ∈ leaves, leaf.Open X p) (hdo : ∀ leaf ∈ leaves, leaf.isDoable p = false)
    (hq : same q p) : same (leaves.foldl (fun p leaf => leaf.on p) q) p := by
  induction leaves generalizing q with
  | nil => exact hq
  | cons leaf leaves ih =>
    obtain ⟨hfirst, hrest⟩ := List.forall_mem_cons.1 hopen
    obtain ⟨hdofirst, hdorest⟩ := List.forall_mem_cons.1 hdo
    have hof : ∀ a ∈ leaf.slots, a.Of X q := fun a ha => (h.of_iff hq a).2 (hfirst a ha).of
    have hon := Leaf.on_eq_restore hfirst (fun a ha => (h.agree hq).get a (hof a ha)) hdofirst
    refine ih hrest hdorest ?_
    show same (leaf.on q) p
    rw [hon]
    exact h.equivalence.trans (h.restore_self hof) hq

namespace Move

variable [Workspace W S sh] [Workspace.Lawful W] [DecidableEq V] {w : W}

/-- A move over open slots that cannot be done leaves the plan as it is. -/
theorem same_apply_of_not_doable (h : Lenses X same) (hopen : ∀ a ∈ m.slots, a.Open X (plan w))
    (hdo : m.isDoable (plan w) = false) : same (plan (m.apply w)) (plan w) := by
  rw [plan_apply]
  refine h.foldl_on_same (fun leaf hleaf a ha => hopen a (mem_slots.2 ⟨leaf, hleaf, ha⟩)) ?_
    (h.equivalence.refl _)
  intro leaf hleaf
  unfold isDoable at hdo
  rw [List.any_eq_false] at hdo
  exact Bool.eq_false_iff.2 (hdo leaf hleaf)

theorem isDoable_of_changes (h : Lenses X same) (hopen : ∀ a ∈ m.slots, a.Open X (plan w))
    (hchanges : m.Changes X w) : m.isDoable (plan w) := by
  obtain ⟨a, ha, hne⟩ := hchanges
  by_contra hdo
  rw [Bool.not_eq_true] at hdo
  have hsame := h.equivalence.symm (same_apply_of_not_doable h hopen hdo)
  exact hne ((h.agree hsame).get a ha).symm

theorem changes_of_lasting (h : Lenses X same) (hm : m.Of X (plan w))
    (hlasting : m.Lasting (plan w)) : m.Changes X w := by
  obtain ⟨before, part, behind, hleaves, hdo, hbefore, hbehind⟩ := hlasting
  have hall : ∀ leaf ∈ before ++ part :: behind, ∀ a ∈ leaf.slots, a.Of X (plan w) :=
    hleaves ▸ hm.leaf
  obtain ⟨hofbefore, hof⟩ := List.forall_mem_append.1 hall
  obtain ⟨hofpart, hofbehind⟩ := List.forall_mem_cons.1 hof
  have hkept := h.of_foldl_on hofbefore
  obtain ⟨a, ha, hne⟩ := Leaf.get_on_ne h (fun a ha => (hkept a).2 (hofpart a ha))
    (fun a ha => h.get_foldl_on ha (hofpart a (Leaf.mem_slots_of_mem_reads ha)) hofbefore hbefore) hdo
  have hkept' : ∀ a : Slot S V, a.Of X (part.on (before.foldl (fun p leaf => leaf.on p) (plan w))) ↔
      a.Of X (plan w) := fun a =>
    (h.of_leaf_on (fun b hb => (hkept b).2 (hofpart b hb)) a).trans (hkept a)
  refine ⟨a, hofpart a ha, ?_⟩
  rw [plan_apply]
  unfold Move.on
  rw [hleaves, List.foldl_append, List.foldl_cons, h.get_foldl_on ha ((hkept' a).2 (hofpart a ha))
    (fun leaf hleaf b hb => (hkept' b).2 (hofbehind leaf hleaf b hb)) hbehind]
  exact hne

/-- Where all parts have slots of their own, a part that can be done lasts. -/
theorem lasting_of_pairwise (hapart : m.leaves.Pairwise fun l k => Slot.Apart l.slots k.slots)
    (hdo : m.isDoable p) : m.Lasting p := by
  obtain ⟨part, hpart, hdopart⟩ := List.any_eq_true.1 hdo
  obtain ⟨before, behind, hleaves⟩ := List.append_of_mem hpart
  rw [hleaves, List.pairwise_append, List.pairwise_cons] at hapart
  obtain ⟨-, ⟨hbehind, -⟩, hbefore⟩ := hapart
  refine ⟨before, part, behind, hleaves, hdopart, fun leaf hleaf a ha => ?_, hbehind⟩
  exact (hbefore leaf hleaf part List.mem_cons_self).symm a (Leaf.mem_slots_of_mem_reads ha)

theorem isDoable_iff_changes (h : Lenses X same) (hopen : ∀ a ∈ m.slots, a.Open X (plan w))
    (hapart : m.leaves.Pairwise fun l k => Slot.Apart l.slots k.slots) :
    m.isDoable (plan w) ↔ m.Changes X w :=
  ⟨fun hdo => changes_of_lasting h (fun a ha => (hopen a ha).of) (lasting_of_pairwise hapart hdo),
    isDoable_of_changes h hopen⟩

end Move

/-! ## The candidates of a step -/

namespace LocalSearch

variable [Workspace W S sh] [DecidableEq V]

/-- The candidates that were drawn since `b` touch open slots. Some of those that can be done were
considered, in order; all others were counted as illegal. -/
structure Sifted (X : Variable S V → Prop) (b : Searching W S V sh) (x : Accounted W S V sh) :
    Prop where
  drawn_open : ∀ m ∈ x.2.drawn, ∀ a ∈ m.slots, a.Open X b.2.run.plan
  considered : (x.2.seen.map (·.1)).Sublist (x.2.drawn.filter (·.isDoable b.2.run.plan))
  evaluated : x.1.2.run.stats.evaluated = b.2.run.stats.evaluated + x.2.seen.length
  illegal : x.1.2.run.stats.illegal =
    b.2.run.stats.illegal + x.2.drawn.countP fun m => !m.isDoable b.2.run.plan

/-- Besides, `ps` can be done and are still to be considered. -/
structure Sifting (X : Variable S V → Prop) (same : S → S → Prop) (good : W → Prop)
    (b : Searching W S V sh) (_ : Draws) (ps : List (Move S V)) (x : Accounted W S V sh) : Prop
    extends Sifted X b x where
  holds : Holds same good b.2.run.plan x.1.2.run.workspace
  treeOver : x.1.1.neighbourhood.tree.Over X
  within : x.1.1.neighbourhood.Within (Slot.Open X b.2.run.plan)
  pending : (x.2.seen.map (·.1) ++ ps).Sublist (x.2.drawn.filter (·.isDoable b.2.run.plan))

variable {good : W → Prop} {b s : Searching W S V sh} {d : Draws} {ps : List (Move S V)}
  {x : Accounted W S V sh} {k : Account S V sh} {last : Score sh}

/-- What is drawn touches open slots, and can be done now if it could be done when the step
began. -/
theorem Sifting.next (h : Sifting X same good b d ps (s, k)) (hl : Lenses X same)
    (hP : Plan.SharesEntities same) :
    (drawn s).1.neighbourhood.Within (Slot.Open X b.2.run.plan) ∧ ∀ m, nextMove s = some m →
      (∀ a ∈ m.slots, a.Open X b.2.run.plan) ∧
        m.isDoable b.2.run.plan = m.isDoable s.2.run.plan := by
  have hsame : same b.2.run.plan s.2.run.plan := h.holds.same
  have hmovable : ∀ y, X y → ∀ e ∈ Plan.movable s.2.run.plan y.family,
      Slot.Open X b.2.run.plan (⟨y, e⟩ : Slot S V) := fun y hy e he => by
    rw [← hP.movable hsame] at he
    exact ⟨hy, he⟩
  obtain ⟨hwithin, hnext⟩ := h.within.next h.treeOver hmovable s.2.run.source
  refine ⟨hwithin, fun m hm => ⟨hnext m hm, ?_⟩⟩
  exact Move.isDoable_congr hP hsame fun a ha => (hl.agree hsame).get a (hnext m hm a ha).of

/-- Whatever a step does while it collects, it considers what can be done and counts the rest. -/
theorem Sifted.audit [ToString V] [Workspace.Lawful W] (hl : Lenses X same)
    (hg : Exact X same good) (hP : Plan.SharesEntities same) (b : Searching W S V sh)
    (last : Score sh) (size : Nat) : Audit last size (Sifting X same good b) (Sifted X b) where
  upheld h := h.toSifted
  dry {d ps s k} h _ _ := by
    obtain ⟨hwithin, -⟩ := h.next hl hP
    exact { h with within := hwithin }
  draw {d ps s k m} h _ _ _ hm hdo := by
    obtain ⟨hwithin, hnext⟩ := h.next hl hP
    obtain ⟨hopen, hdoable⟩ := hnext m hm
    rw [hdo] at hdoable
    have hfilter : (k.drawn ++ [m]).filter (·.isDoable b.2.run.plan) =
        k.drawn.filter (·.isDoable b.2.run.plan) ++ [m] := by
      rw [List.filter_append, List.filter_singleton, hdoable]
      rfl
    refine ⟨⟨?_, ?_, h.evaluated, ?_⟩, h.holds, h.treeOver, hwithin, ?_⟩
    · exact List.forall_mem_append.2 ⟨h.drawn_open, List.forall_mem_singleton.2 hopen⟩
    · show List.Sublist _ ((k.drawn ++ [m]).filter _)
      rw [hfilter]
      exact h.considered.trans (List.sublist_append_left _ _)
    · show _ = _ + (k.drawn ++ [m]).countP _
      rw [List.countP_append, List.countP_singleton, hdoable]
      exact h.illegal
    · show List.Sublist _ ((k.drawn ++ [m]).filter _)
      rw [hfilter, ← List.append_assoc]
      exact h.pending.append_right [m]
  illegal {d ps s k m} h _ _ _ hm hdo := by
    obtain ⟨hwithin, hnext⟩ := h.next hl hP
    obtain ⟨hopen, hdoable⟩ := hnext m hm
    rw [hdo] at hdoable
    have hfilter : (k.drawn ++ [m]).filter (·.isDoable b.2.run.plan) =
        k.drawn.filter (·.isDoable b.2.run.plan) := by
      rw [List.filter_append, List.filter_singleton, hdoable]
      exact List.append_nil _
    refine ⟨⟨?_, ?_, h.evaluated, ?_⟩, h.holds, h.treeOver, hwithin, ?_⟩
    · exact List.forall_mem_append.2 ⟨h.drawn_open, List.forall_mem_singleton.2 hopen⟩
    · show List.Sublist _ ((k.drawn ++ [m]).filter _)
      rw [hfilter]
      exact h.considered
    · show s.2.run.stats.illegal + 1 = _ + (k.drawn ++ [m]).countP _
      rw [List.countP_append, List.countP_singleton, hdoable]
      exact congrArg (· + 1) h.illegal
    · show List.Sublist _ ((k.drawn ++ [m]).filter _)
      rw [hfilter]
      exact h.pending
  score {d s k m a w} h e := by
    have hmem : m ∈ k.drawn := (List.mem_filter.1 (h.pending.subset (by simp))).1
    have hm : m.Of X b.2.run.plan := fun a ha => (h.drawn_open m hmem a ha).of
    exact { h with holds := (scoreCandidate_eq_ok hg hl hm h.holds e).1 }
  fail h _ := { h.toSifted with }
  consider {d ps s k m a} h := by
    have hpending : (((k.consider m a).seen.map (·.1)) ++ ps).Sublist
        (k.drawn.filter (·.isDoable b.2.run.plan)) := by
      show List.Sublist ((k.seen ++ [(m, a)]).map (·.1) ++ ps) _
      rw [List.map_append, List.append_assoc]
      exact h.pending
    have hsifted : Sifted X b (LocalSearch.considered last m a s, k.consider m a) := by
      refine ⟨h.drawn_open, (List.sublist_append_left _ _).trans hpending, ?_, h.illegal⟩
      show s.2.run.stats.evaluated + 1 = _ + (k.seen ++ [(m, a)]).length
      rw [List.length_append]
      exact congrArg (· + 1) h.evaluated
    refine ⟨hsifted, fun _ => ⟨hsifted, h.holds, ?_, ?_, hpending⟩⟩
    · show (LocalSearch.considered last m a s).1.neighbourhood.tree.Over X
      rw [neighbourhood_considered]
      exact h.treeOver
    · show (LocalSearch.considered last m a s).1.neighbourhood.Within _
      rw [neighbourhood_considered]
      exact h.within

variable [ToString V] [Workspace.Lawful W] {fuel : Nat}

/-- So it is, however collecting ends. -/
theorem sifted_account (hl : Lenses X same) (hg : Exact X same good)
    (hP : Plan.SharesEntities same) (hs : Ready X good s) (fuel : Nat) (last : Score sh) :
    (∃ t, Sifted X (begun last s) (t, account fuel last (begun last s))) ∧
      ∀ t, gather fuel last (begun last s) = .ok () t →
        Sifted X (begun last s) (t, account fuel last (begun last s)) := by
  have haudit := Sifted.audit hl hg hP (begun last s) last (begun last s).1.batchSize
  have hidle : (begun last s).1.threads = some 0 → ∀ {d ps} {x : Accounted W S V sh},
      Sifting X same good (begun last s) d ps x → Sifting X same good (begun last s) d [] x := by
    intro _ d ps x h
    exact { h with pending := (List.append_nil (x.2.seen.map (·.1))).symm ▸ h.considered }
  have hbegin : Sifting X same good (begun last s) {} [] (begun last s, {}) := by
    refine ⟨⟨nofun, .slnil, rfl, rfl⟩, ⟨hs.good, hl.equivalence.refl _⟩, hs.treeOver, ?_, .slnil⟩
    exact Neighbourhood.within_hear _ _ _ rfl
  refine ⟨haudit.account fuel hidle hbegin, fun t e => ?_⟩
  obtain ⟨hsifted, -⟩ | ⟨hsifting, -⟩ | ⟨hsifting, -⟩ := haudit.closed hidle hbegin e
  · exact hsifted
  · exact hsifting.toSifted
  · exact hsifting.toSifted

/-- A step that has a score applied a candidate that can be done. -/
theorem applied_doable (hl : Lenses X same) (hg : Exact X same good)
    (hP : Plan.SharesEntities same) (hs : Ready X good s) {a : Score sh} {t : Searching W S V sh}
    (e : step fuel last s = .ok (some a) t) :
    ∃ m : Move S V, m.Of X s.2.run.plan ∧ m.isDoable s.2.run.plan ∧
      same (m.on s.2.run.plan) t.2.run.plan := by
  obtain ⟨hatomic, -⟩ := StepMade.atomic hl hg ⟨last, s, some a, t, e⟩ hs
  cases hatomic with
  | unchanged _ _ _ _ _ answer _ => cases answer
  | applied _ _ _ m _ _ _ _ _ scored plan _ _ _ =>
    obtain ⟨n, q, source, -, hsame, -, hdo⟩ := scored.doable
    have hdoable := Move.isDoable_congr hP hsame fun a ha => (hl.agree hsame).get a (scored.of a ha)
    exact ⟨m, scored.of, hdoable.trans hdo, plan⟩

end LocalSearch

/-! ## What all of it comes to -/

/-- What a construction picks for a placement changes its slot. -/
theorem Construction.changes_of_choose [Workspace W S sh] [DecidableEq V] [ToString V]
    [Workspace.Lawful W] {good : W → Prop} (hl : Lenses X same) (hg : Exact X same good)
    (hP : Plan.SharesEntities same) {s t : Construction S V sh × Scope W S sh} {place : Placement}
    {d : Definition S V} {last : Score sh} (hplaced : s.1.definitions[place.placer]? = some d)
    (hb : Slot.Of X s.2.run.plan ⟨d.cell, place.entity⟩) (hw : good s.2.run.workspace)
    (e : choose place last (fired .stepStarted last s) = .ok (some m) t) :
    m.Changes X s.2.run.workspace := by
  have hchoose := choose_finishes hl hg hP last hplaced hb hw
  rw [e] at hchoose
  cases hchoose with
  | ok h =>
    obtain ⟨-, -, q, hm, hpicked⟩ := h
    cases q with
    | none => cases hm
    | some q =>
      obtain rfl := Option.some.inj hm
      have hdo := (List.mem_filter.1 hpicked.mem).2
      have hapart : (assignment ⟨d.cell, place.entity⟩ q.1).leaves.Pairwise fun l k =>
          Slot.Apart l.slots k.slots := List.pairwise_singleton _ _
      exact Move.changes_of_lasting hl (assignment_of hb q.1) (Move.lasting_of_pairwise hapart hdo)

/-- Over open slots a move that changes a value can be done, and one with a part that lasts changes a
value; where the parts have slots of their own, a move can be done exactly if it changes a value. In
a step of a local search no candidate that would change a value is passed over as illegal, all
candidates that are considered can be done, and so can the one that is applied. A construction
applies nothing but moves that change a value. -/
theorem Lenses.doable_changes [Workspace W S sh] [DecidableEq V] [ToString V] [Workspace.Lawful W]
    (hl : Lenses X same) (hP : Plan.SharesEntities same) :
    (∀ (w : W) (m : Move S V), (∀ a ∈ m.slots, a.Open X (plan w)) →
      (m.Changes X w → m.isDoable (plan w)) ∧ (m.Lasting (plan w) → m.Changes X w) ∧
      (m.leaves.Pairwise (fun l k => Slot.Apart l.slots k.slots) →
        (m.isDoable (plan w) ↔ m.Changes X w))) ∧
    (∀ good, Exact X same good → ∀ fuel last (s : LocalSearch.Searching W S V sh),
      LocalSearch.Ready X good s →
      let k := LocalSearch.account fuel last (LocalSearch.begun last s)
      (∀ m ∈ k.drawn, m.Changes X s.2.run.workspace → m.isDoable s.2.run.plan) ∧
      (∀ q ∈ k.seen, q.1.isDoable s.2.run.plan ∧
        (q.1.Lasting s.2.run.plan → q.1.Changes X s.2.run.workspace)) ∧
      (∀ t, LocalSearch.gather fuel last (LocalSearch.begun last s) = .ok () t →
        t.2.run.stats.evaluated = s.2.run.stats.evaluated + k.seen.length ∧
        t.2.run.stats.illegal =
          s.2.run.stats.illegal + k.drawn.countP fun m => !m.isDoable s.2.run.plan) ∧
      ∀ a t, LocalSearch.step fuel last s = .ok (some a) t →
        ∃ m : Move S V, m.isDoable s.2.run.plan ∧ same (m.on s.2.run.plan) t.2.run.plan ∧
          (m.Lasting s.2.run.plan → m.Changes X s.2.run.workspace)) ∧
    ∀ good, Exact X same good → ∀ (s t : Construction S V sh × Scope W S sh) place d last m,
      s.1.definitions[place.placer]? = some d → Slot.Of X s.2.run.plan ⟨d.cell, place.entity⟩ →
      good s.2.run.workspace →
      Construction.choose place last (Construction.fired .stepStarted last s) = .ok (some m) t →
      m.Changes X s.2.run.workspace := by
  refine ⟨fun w m hopen => ⟨?_, ?_, ?_⟩, fun good hg fuel last s hs => ?_, ?_⟩
  · exact Move.isDoable_of_changes hl hopen
  · exact Move.changes_of_lasting hl fun a ha => (hopen a ha).of
  · exact Move.isDoable_iff_changes hl hopen
  · intro k
    obtain ⟨⟨t, hsifted⟩, hended⟩ := LocalSearch.sifted_account hl hg hP hs fuel last
    refine ⟨fun m hm => Move.isDoable_of_changes hl (hsifted.drawn_open m hm), fun q hq => ?_,
      fun t e => ⟨(hended t e).evaluated, (hended t e).illegal⟩, fun a t e => ?_⟩
    · have hmem := hsifted.considered.subset (List.mem_map_of_mem hq)
      obtain ⟨hdrawn, hdo⟩ := List.mem_filter.1 hmem
      refine ⟨hdo, Move.changes_of_lasting hl fun a ha => ?_⟩
      exact (hsifted.drawn_open q.1 hdrawn a ha).of
    · obtain ⟨m, hm, hdo, hplan⟩ := LocalSearch.applied_doable hl hg hP hs e
      exact ⟨m, hdo, hplan, Move.changes_of_lasting hl hm⟩
  · intro good hg s t place d last m hplaced hb hw e
    exact Construction.changes_of_choose hl hg hP hplaced hb hw e

/-! ## Moves on a row -/

namespace Row

theorem open_iff {row : Row} {a : Slot Row Nat} :
    a.Open (· = cell) row ↔ a.cell = cell ∧ a.entity < row.cells.length := by
  rw [← of_iff]
  refine ⟨Slot.Open.of, fun h => ⟨h.1, ?_⟩⟩
  exact List.mem_filter.2 ⟨List.mem_range.2 h.2, rfl⟩

/-- A swap of two cells, twice. -/
def swapTwice : Move Row Nat := .composite [.leaf (.swap cell 0 1), .leaf (.swap cell 0 1)]

/-- Each of the two swaps changes both cells, and the second one takes the first one back. -/
theorem swapTwice_doable_unchanged :
    (∀ a ∈ swapTwice.slots, a.Open (· = cell) (workspace [some 0, some 1]).plan) ∧
      swapTwice.isDoable (workspace [some 0, some 1]).plan ∧
      ¬swapTwice.Changes (· = cell) (workspace [some 0, some 1]) := by
  refine ⟨fun a ha => ?_, by decide, ?_⟩
  · have hslots : a ∈ [(⟨cell, 0⟩ : Slot Row Nat), ⟨cell, 1⟩, ⟨cell, 0⟩, ⟨cell, 1⟩] := ha
    simp only [List.mem_cons, List.not_mem_nil, or_false] at hslots
    rcases hslots with rfl | rfl | rfl | rfl
    · exact open_iff.2 ⟨rfl, by decide⟩
    · exact open_iff.2 ⟨rfl, by decide⟩
    · exact open_iff.2 ⟨rfl, by decide⟩
    · exact open_iff.2 ⟨rfl, by decide⟩
  · rintro ⟨a, -, hne⟩
    exact hne rfl

/-- A swap, and another cell that is filled. -/
def swapAndFill : Move Row Nat :=
  .composite [.leaf (.swap cell 0 1), .leaf (.change cell 2 (some 7))]

/-- The parts have slots of their own, so the move changes a value since it can be done. A search
that fills a row passes over the cell that has its value already. -/
theorem doable_changes_row :
    swapAndFill.Changes (· = cell) (workspace [some 0, some 1, none]) ∧
      ∃ t, LocalSearch.gather 5 (.single 0 (-1))
          (LocalSearch.begun (.single 0 (-1)) (search, ⟨{ index := 0 }, run⟩)) = .ok () t ∧
        t.2.run.stats.evaluated = 1 ∧ t.2.run.stats.illegal = 1 := by
  have hP : Plan.SharesEntities (Agree (S := Row) (· = cell)) :=
    ⟨fun h => funext h.entityCount, fun _ => rfl⟩
  obtain ⟨hmoves, hsteps, -⟩ := Lenses.doable_changes
    (W := RecomputingWorkspace Row .simple) lawful.lenses hP
  constructor
  · have hopen : ∀ a ∈ swapAndFill.slots,
        a.Open (· = cell) (workspace [some 0, some 1, none]).plan := fun a ha => by
      have hslots : a ∈ [(⟨cell, 0⟩ : Slot Row Nat), ⟨cell, 1⟩, ⟨cell, 2⟩] := ha
      simp only [List.mem_cons, List.not_mem_nil, or_false] at hslots
      rcases hslots with rfl | rfl | rfl
      · exact open_iff.2 ⟨rfl, by decide⟩
      · exact open_iff.2 ⟨rfl, by decide⟩
      · exact open_iff.2 ⟨rfl, by decide⟩
    have hapart : swapAndFill.leaves.Pairwise fun l k => Slot.Apart l.slots k.slots := by
      refine List.pairwise_pair.2 fun a ha b hb => ?_
      obtain rfl := List.mem_singleton.1 hb
      have hslots : a ∈ [(⟨cell, 0⟩ : Slot Row Nat), ⟨cell, 1⟩] := ha
      simp only [List.mem_cons, List.not_mem_nil, or_false] at hslots
      rcases hslots with rfl | rfl
      · decide
      · decide
    obtain ⟨-, -, hiff⟩ := hmoves _ swapAndFill hopen
    exact (hiff hapart).1 (by decide)
  · have hready : LocalSearch.Ready (· = cell) (RecomputingWorkspace.Keeps rate)
        (search, ⟨{ index := 0 }, run⟩) := ⟨⟨rfl, nofun⟩, rfl⟩
    obtain ⟨-, -, hstats, -⟩ := hsteps _ exact 5 (.single 0 (-1)) _ hready
    have hok : (match LocalSearch.gather 5 (.single 0 (-1))
        (LocalSearch.begun (.single 0 (-1)) (search, ⟨{ index := 0 }, run⟩)) with
      | .ok _ _ => true
      | .error _ _ => false) = true := by decide +kernel
    cases e : LocalSearch.gather 5 (.single 0 (-1))
        (LocalSearch.begun (.single 0 (-1)) (search, ⟨{ index := 0 }, run⟩)) with
    | error f t =>
      rw [e] at hok
      cases hok
    | ok _ t =>
      obtain ⟨hevaluated, hillegal⟩ := hstats t e
      refine ⟨t, rfl, hevaluated.trans (by decide +kernel), hillegal.trans (by decide +kernel)⟩

end Row

end PlanSearch
