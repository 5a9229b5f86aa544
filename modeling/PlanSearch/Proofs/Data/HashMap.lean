import Mathlib.Data.List.Nodup
import Std.Data.HashMap.Lemmas

/-!
# Entries of hash maps

The entries of a map as a list: a new key adds one entry, and erasing a key takes one away. Lists of
entries are compared up to their order, which a hash map does not promise.
-/

namespace PlanSearch

variable {α β : Type} [BEq α] [LawfulBEq α] [Hashable α] {m : Std.HashMap α β}
  {k : α} {v : β}

theorem getElem?_insert_ite [DecidableEq α] (m : Std.HashMap α β) (k a : α) (v : β) :
    (m.insert k v)[a]? = if a = k then some v else m[a]? := by
  rw [Std.HashMap.getElem?_insert]
  by_cases h : a = k
  · simp [h]
  · have h' : ¬ k = a := fun e => h e.symm
    simp [h, h']

theorem getElem?_erase_ite [DecidableEq α] (m : Std.HashMap α β) (k a : α) :
    (m.erase k)[a]? = if a = k then none else m[a]? := by
  rw [Std.HashMap.getElem?_erase]
  by_cases h : a = k
  · simp [h]
  · have h' : ¬ k = a := fun e => h e.symm
    simp [h, h']

theorem nodup_toList (m : Std.HashMap α β) : m.toList.Nodup := by
  refine (m.distinct_keys_toList).imp ?_
  intro a b hne hab
  subst hab
  simp at hne

theorem toList_insert_of_new (v : β) (h : m[k]? = none) :
    (m.insert k v).toList.Perm ((k, v) :: m.toList) := by
  have hk : (k, v) ∉ m.toList := by
    rw [Std.HashMap.mem_toList_iff_getElem?_eq_some, h]
    simp
  rw [List.perm_ext_iff_of_nodup (nodup_toList _) (List.nodup_cons.2 ⟨hk, nodup_toList m⟩)]
  rintro ⟨a, b⟩
  rw [List.mem_cons, Std.HashMap.mem_toList_iff_getElem?_eq_some,
    Std.HashMap.mem_toList_iff_getElem?_eq_some, Std.HashMap.getElem?_insert]
  by_cases ha : k = a
  · subst ha
    simp [h, eq_comm]
  · have ha' : a ≠ k := fun e => ha e.symm
    simp [ha, ha']

theorem toList_eq_cons_erase (h : m[k]? = some v) :
    m.toList.Perm ((k, v) :: (m.erase k).toList) := by
  have hk : (k, v) ∉ (m.erase k).toList := by
    rw [Std.HashMap.mem_toList_iff_getElem?_eq_some, Std.HashMap.getElem?_erase]
    simp
  rw [List.perm_ext_iff_of_nodup (nodup_toList _) (List.nodup_cons.2 ⟨hk, nodup_toList _⟩)]
  rintro ⟨a, b⟩
  rw [List.mem_cons, Std.HashMap.mem_toList_iff_getElem?_eq_some,
    Std.HashMap.mem_toList_iff_getElem?_eq_some, Std.HashMap.getElem?_erase]
  by_cases ha : k = a
  · subst ha
    simp [h, eq_comm]
  · have ha' : a ≠ k := fun e => ha e.symm
    simp [ha, ha']

theorem toList_erase_of_none (h : m[k]? = none) : (m.erase k).toList.Perm m.toList := by
  rw [List.perm_ext_iff_of_nodup (nodup_toList _) (nodup_toList _)]
  rintro ⟨a, b⟩
  rw [Std.HashMap.mem_toList_iff_getElem?_eq_some, Std.HashMap.mem_toList_iff_getElem?_eq_some,
    Std.HashMap.getElem?_erase]
  by_cases ha : k = a
  · subst ha
    simp [h]
  · simp [ha]

end PlanSearch
