import Mathlib.Algebra.BigOperators.Group.List.Basic
import Mathlib.Algebra.Ring.Int.Defs
import Mathlib.Data.List.Dedup
import PlanSearch.Network.Collector
import PlanSearch.Proofs.Checked

/-!
# What collectors collect

`collect` says what a collector makes of the values of a group: their number, their sum, the number
of distinct ones, or an extremum. It looks at all of them at once, and counts and sums fail only if
their end result does not fit. An accumulator takes values one by one; `Represents` says that it
stands for a list of values, whatever the order in which they came.

    Represents c acc (v :: vs) → acc.remove? v = .ok (some acc') → Represents c acc' vs   (remove)
    Represents c acc vs → collect c vs = .ok acc.result                                   (collect)
-/

namespace PlanSearch

/-- The number that a group with these values has. -/
def Collector.collect (values : List Int64) : Collector → Checked Int64
  | .count => Checked.fit values.length
  | .sum => Checked.fit (values.map Int64.toInt).sum
  | .countDistinct => .ok (Int64.ofNat values.dedup.length)
  | .min => .ok (values.min?.getD 0)
  | .max => .ok (values.max?.getD 0)

open Checked (bind_eq_ok map_eq_ok map_eq_error)

namespace Accumulator

/-- The accumulator stands for these values. -/
inductive Represents : Collector → Accumulator → List Int64 → Prop where
  | count {n : Int64} {vs : List Int64} (h : n.toInt = vs.length) : Represents .count (.count n) vs
  | sum {n : Int64} {vs : List Int64} (h : n.toInt = (vs.map Int64.toInt).sum) :
    Represents .sum (.sum n) vs
  | distinct {seen : Std.HashMap Int64 Nat} {vs : List Int64}
    (h : ∀ v, seen[v]? = if v ∈ vs then some (vs.count v) else none) :
    Represents .countDistinct (.distinct seen) vs
  | least {m : Option Int64} {vs : List Int64} (h : m = vs.min?) : Represents .min (.least m) vs
  | greatest {m : Option Int64} {vs : List Int64} (h : m = vs.max?) :
    Represents .max (.greatest m) vs

variable {c : Collector} {acc acc' : Accumulator} {vs ws : List Int64} {v : Int64}

/-! ## Lemmas -/

theorem min_eq_ite (a b : Int64) : min a b = if a < b then a else b := by
  show (if a ≤ b then a else b) = _
  rcases Int64.lt_or_le a b with h | h
  · rw [if_pos h, if_pos (Int64.le_of_lt h)]
  · rw [if_neg (Int64.not_lt.2 h)]
    split
    · next h' => exact Int64.le_antisymm h' h
    · rfl

theorem max_eq_ite (a b : Int64) : max a b = if b < a then a else b := by
  show (if a ≤ b then b else a) = _
  rcases Int64.lt_or_le b a with h | h
  · rw [if_pos h, if_neg (Int64.not_le.2 h)]
  · rw [if_neg (Int64.not_lt.2 h), if_pos h]

instance : Std.LawfulOrderMax Int64 :=
  .of_max_le_iff
    (fun a b c => by
      rw [max_eq_ite]
      split
      · next h => exact ⟨fun hc => ⟨hc, Int64.le_trans (Int64.le_of_lt h) hc⟩, fun hc => hc.1⟩
      · next h => exact ⟨fun hc => ⟨Int64.le_trans (Int64.not_lt.1 h) hc, hc⟩, fun hc => hc.2⟩)
    (fun a b => by
      rw [max_eq_ite]
      split
      · exact .inl rfl
      · exact .inr rfl)

theorem min?_cons_eq (v : Int64) (vs : List Int64) :
    (v :: vs).min? = some (vs.min?.elim v fun n => if v < n then v else n) := by
  rw [List.min?_cons]
  have h : (fun n => min v n) = fun n => if v < n then v else n := funext (min_eq_ite v)
  rw [← h]

theorem max?_cons_eq (v : Int64) (vs : List Int64) :
    (v :: vs).max? = some (vs.max?.elim v fun n => if n < v then v else n) := by
  rw [List.max?_cons]
  have h : (fun n => max v n) = fun n => if n < v then v else n := funext (max_eq_ite v)
  rw [← h]

theorem min?_perm (h : vs.Perm ws) : vs.min? = ws.min? := by
  cases hm : ws.min? with
  | none =>
    rw [List.min?_eq_none_iff] at hm ⊢
    subst hm
    exact h.eq_nil
  | some m =>
    rw [List.min?_eq_some_iff] at hm ⊢
    exact ⟨h.mem_iff.2 hm.1, fun b hb => hm.2 b (h.mem_iff.1 hb)⟩

theorem max?_perm (h : vs.Perm ws) : vs.max? = ws.max? := by
  cases hm : ws.max? with
  | none =>
    rw [List.max?_eq_none_iff] at hm ⊢
    subst hm
    exact h.eq_nil
  | some m =>
    rw [List.max?_eq_some_iff] at hm ⊢
    exact ⟨h.mem_iff.2 hm.1, fun b hb => hm.2 b (h.mem_iff.1 hb)⟩

/-- The order of the values does not matter. -/
theorem collect_perm (h : vs.Perm ws) : c.collect vs = c.collect ws := by
  cases c with
  | count => simp only [Collector.collect, h.length_eq]
  | sum => simp only [Collector.collect, (h.map Int64.toInt).sum_eq]
  | countDistinct => simp only [Collector.collect, h.dedup.length_eq]
  | min => simp only [Collector.collect, min?_perm h]
  | max => simp only [Collector.collect, max?_perm h]

namespace Represents

theorem perm (r : Represents c acc vs) (h : vs.Perm ws) : Represents c acc ws := by
  cases r with
  | count e => exact .count (by rw [e, h.length_eq])
  | sum e => exact .sum (by rw [e, (h.map Int64.toInt).sum_eq])
  | distinct e =>
    refine .distinct fun v => ?_
    rw [e v, h.count_eq]
    simp only [h.mem_iff]
  | least e => exact .least (by rw [e, min?_perm h])
  | greatest e => exact .greatest (by rw [e, max?_perm h])

theorem empty (c : Collector) : Represents c (Accumulator.empty c) [] := by
  cases c with
  | count => exact .count rfl
  | sum => exact .sum rfl
  | countDistinct => exact .distinct fun v => by simp
  | min => exact .least rfl
  | max => exact .greatest rfl

theorem add (r : Represents c acc vs) (e : acc.add v = .ok acc') : Represents c acc' (v :: vs) := by
  cases r with
  | @count n _ h =>
    obtain ⟨m, hm, rfl⟩ := map_eq_ok e
    rw [Checked.add_eq_ok_iff] at hm
    exact .count (by rw [hm, h]; simp)
  | @sum n _ h =>
    obtain ⟨m, hm, rfl⟩ := map_eq_ok e
    rw [Checked.add_eq_ok_iff] at hm
    exact .sum (by rw [hm, h]; simp; omega)
  | @distinct seen _ h =>
    cases e
    refine .distinct fun w => ?_
    rw [Std.HashMap.getElem?_insert]
    by_cases hw : v = w
    · subst hw
      have hd : seen.getD v 0 = vs.count v := by
        rw [Std.HashMap.getD_eq_getD_getElem?, h v]
        split
        · rfl
        · next hv => rw [List.count_eq_zero_of_not_mem hv]; rfl
      simp [hd]
    · have hv : w ≠ v := fun e => hw e.symm
      simp [hw, hv, h w]
  | least h =>
    cases e
    exact .least (by rw [min?_cons_eq, h])
  | greatest h =>
    cases e
    exact .greatest (by rw [max?_cons_eq, h])

theorem remove (r : Represents c acc (v :: vs)) (e : acc.remove? v = .ok (some acc')) :
    Represents c acc' vs := by
  cases r with
  | @count n _ h =>
    obtain ⟨m, hm, hacc⟩ := map_eq_ok e
    cases hacc
    rw [Checked.sub_eq_ok_iff] at hm
    exact .count (by rw [hm, h]; simp)
  | @sum n _ h =>
    obtain ⟨m, hm, hacc⟩ := map_eq_ok e
    cases hacc
    rw [Checked.sub_eq_ok_iff] at hm
    exact .sum (by rw [hm, h]; simp)
  | @distinct seen _ h =>
    have hv := h v
    simp only [List.mem_cons, true_or, if_true, List.count_cons_self] at hv
    simp only [remove?, hv] at e
    cases e
    refine .distinct fun w => ?_
    by_cases hw : v = w
    · subst hw
      by_cases hz : vs.count v = 0
      · have hm : v ∉ vs := List.count_eq_zero.1 hz
        simp [hz, hm]
      · have hm : v ∈ vs := List.count_pos_iff.1 (by omega)
        rw [if_neg (by omega)]
        simp [hm]
    · have hne : w ≠ v := fun e => hw e.symm
      have hrest : (if vs.count v + 1 ≤ 1 then seen.erase v
          else seen.insert v (vs.count v + 1 - 1))[w]? = seen[w]? := by
        split
        · simp [Std.HashMap.getElem?_erase, hw]
        · simp [Std.HashMap.getElem?_insert, hw]
      rw [hrest, h w]
      simp [hne, hw]
  | least h => cases e
  | greatest h => cases e

/-- The result of an accumulator is what its collector makes of the values. -/
theorem collect (r : Represents c acc vs) : c.collect vs = .ok acc.result := by
  cases r with
  | count h => exact Checked.fit_eq_ok_iff.2 h
  | sum h => exact Checked.fit_eq_ok_iff.2 h
  | @distinct seen _ h =>
    have hk : seen.keys.Perm vs.dedup := by
      rw [List.perm_ext_iff_of_nodup Std.HashMap.nodup_keys (List.nodup_dedup vs)]
      intro w
      rw [Std.HashMap.mem_keys, List.mem_dedup, Std.HashMap.mem_iff_isSome_getElem?, h w]
      split <;> simp [*]
    have hs : vs.dedup.length = seen.size := by rw [← hk.length_eq, Std.HashMap.length_keys]
    show Except.ok (Int64.ofNat vs.dedup.length) = Except.ok (Int64.ofNat seen.size)
    rw [hs]
  | least h => rw [h]; rfl
  | greatest h => rw [h]; rfl

end Represents

theorem add_error {f : Fault} (e : acc.add v = .error f) : f = .overflow := by
  cases acc with
  | count n => exact (Checked.fit_eq_error_iff.1 (map_eq_error e)).1
  | sum n => exact (Checked.fit_eq_error_iff.1 (map_eq_error e)).1
  | distinct seen => cases e
  | least m => cases e
  | greatest m => cases e

theorem remove_error {f : Fault} (e : acc.remove? v = .error f) : f = .overflow := by
  cases acc with
  | count n => exact (Checked.fit_eq_error_iff.1 (map_eq_error e)).1
  | sum n => exact (Checked.fit_eq_error_iff.1 (map_eq_error e)).1
  | distinct seen =>
    simp only [remove?] at e
    split at e <;> cases e
  | least m => cases e
  | greatest m => cases e

theorem foldlM_add {values : List Int64} (r : Represents c acc vs)
    (e : values.foldlM (fun acc value => acc.add value) acc = .ok acc') :
    Represents c acc' (values.reverse ++ vs) := by
  induction values generalizing acc vs with
  | nil => cases e; exact r
  | cons v values ih =>
    rw [List.foldlM_cons] at e
    obtain ⟨next, hn, he⟩ := bind_eq_ok e
    have := ih (r.add hn) he
    rwa [List.reverse_cons, List.append_assoc, List.singleton_append]

theorem foldlM_add_error {values : List Int64} {f : Fault}
    (e : values.foldlM (fun acc value => Accumulator.add value acc) acc = .error f) :
    f = .overflow := by
  induction values generalizing acc with
  | nil => cases e
  | cons v values ih =>
    rw [List.foldlM_cons] at e
    cases hn : acc.add v with
    | error g => rw [hn] at e; cases e; exact add_error hn
    | ok next => rw [hn] at e; exact ih e

/-- An accumulator that is built from values stands for them. -/
theorem represents_ofValues {values : List Int64} (e : ofValues c values = .ok acc) :
    Represents c acc values := by
  have := foldlM_add (Represents.empty c) e
  rw [List.append_nil] at this
  exact this.perm (List.reverse_perm values)

end Accumulator

end PlanSearch
