import Mathlib.Data.List.TakeWhile
import PlanSearch.Proofs.Checked
import PlanSearch.Text.Blank
import PlanSearch.Text.Number

/-!
# What is read off a text

Trimming, cutting and reading numbers, each against a description of its result that says nothing of
how it is found: what stands between the white space, the parts between the separators, and the
numerals, which are a sign and at least one digit.

    trim cs = mid ↔ Trimmed cs mid                                              (trim_eq_iff)
    pieces sep cs = parts ↔ Separated sep cs parts                              (pieces_eq_iff)
    readInt64 cs = .ok x ↔ Numeral cs x.toInt                                   (readInt64_eq_ok_iff)
    Numeral (toString n).toList n                                               (numeral_toString)
-/

namespace PlanSearch.Text

variable {cs mid front tail ds : List Char} {sep c : Char} {parts : List (List Char)}

/-! ## White space -/

/-- `mid` is `cs` without the white space at its two ends. -/
structure Trimmed (cs mid : List Char) : Prop where
  around : ∃ before after, cs = before ++ mid ++ after ∧
    (∀ c ∈ before, isBlank c) ∧ ∀ c ∈ after, isBlank c
  head : ∀ c ∈ mid.head?, ¬ isBlank c
  last : ∀ c ∈ mid.getLast?, ¬ isBlank c

theorem dropWhile_isBlank_eq_self (h : ∀ c ∈ cs.head?, ¬ isBlank c) : cs.dropWhile isBlank = cs := by
  cases cs with
  | nil => rfl
  | cons c cs => exact List.dropWhile_cons_of_neg (h c rfl)

theorem not_isBlank_of_mem_head? (h : c ∈ (cs.dropWhile isBlank).head?) : ¬ isBlank c := by
  have hnot := List.head?_dropWhile_not isBlank cs
  rw [Option.mem_def.1 h] at hnot
  simpa using hnot

theorem isBlank_of_mem_takeWhile (h : c ∈ cs.takeWhile isBlank) : isBlank c :=
  List.mem_takeWhile_imp h

theorem trimmed_trim (cs : List Char) : Trimmed cs (trim cs) := by
  unfold trim
  generalize hrest : cs.dropWhile isBlank = rest
  generalize hmid : (rest.reverse.dropWhile isBlank).reverse = mid
  have hcs : cs = cs.takeWhile isBlank ++ rest := by
    rw [← hrest, List.takeWhile_append_dropWhile]
  have hsplit : rest = mid ++ (rest.reverse.takeWhile isBlank).reverse := by
    rw [← hmid, ← List.reverse_append, List.takeWhile_append_dropWhile, List.reverse_reverse]
  refine ⟨⟨cs.takeWhile isBlank, (rest.reverse.takeWhile isBlank).reverse, ?_, ?_, ?_⟩, ?_, ?_⟩
  · rw [List.append_assoc, ← hsplit]
    exact hcs
  · intro c hc
    exact isBlank_of_mem_takeWhile hc
  · intro c hc
    exact isBlank_of_mem_takeWhile (List.mem_reverse.1 hc)
  · intro c hc
    -- What is left begins as the rest does, unless nothing is left.
    have hhead : c ∈ rest.head? := by
      rw [hsplit, List.head?_append, Option.mem_def.1 hc]
      rfl
    rw [← hrest] at hhead
    exact not_isBlank_of_mem_head? hhead
  · intro c hc
    rw [← hmid, List.getLast?_reverse] at hc
    exact not_isBlank_of_mem_head? hc

theorem trim_eq_iff : trim cs = mid ↔ Trimmed cs mid := by
  constructor
  · rintro rfl
    exact trimmed_trim cs
  · rintro ⟨⟨before, after, rfl, hbefore, hafter⟩, hhead, hlast⟩
    have hfront : (before ++ mid ++ after).dropWhile isBlank = (mid ++ after).dropWhile isBlank := by
      rw [List.append_assoc, List.dropWhile_append_of_pos hbefore]
    unfold trim
    rw [hfront]
    by_cases hmid : mid = []
    · subst hmid
      simp [List.dropWhile_eq_nil_iff.2 hafter]
    · have hself : (mid ++ after).dropWhile isBlank = mid ++ after := by
        apply dropWhile_isBlank_eq_self
        intro c hc
        rw [List.head?_append_of_ne_nil _ hmid] at hc
        exact hhead c hc
      have hreverse : ∀ c ∈ after.reverse, isBlank c := by simpa using hafter
      rw [hself, List.reverse_append, List.dropWhile_append_of_pos hreverse,
        dropWhile_isBlank_eq_self, List.reverse_reverse]
      intro c hc
      rw [List.head?_reverse] at hc
      exact hlast c hc

theorem trimmed_self (h : ∀ c ∈ cs, ¬ isBlank c) : Trimmed cs cs where
  around := ⟨[], [], by simp, nofun, nofun⟩
  head c hc := h c (List.mem_of_mem_head? hc)
  last c hc := h c (List.mem_of_mem_getLast? hc)

/-! ## Parts -/

/-- `cs` consists of `parts`, with a separator between any two and none elsewhere. -/
structure Separated (sep : Char) (cs : List Char) (parts : List (List Char)) : Prop where
  joined : [sep].intercalate parts = cs
  clean : ∀ p ∈ parts, sep ∉ p
  ne_nil : parts ≠ []

theorem pieces_eq_splitOn (sep : Char) (cs : List Char) : pieces sep cs = cs.splitOn sep := by
  induction cs with
  | nil => rfl
  | cons c cs ih =>
    rw [List.splitOn_cons_eq_if_modifyHead, ← ih, pieces]
    by_cases hc : c = sep
    · simp [hc]
    · have hne := pieces_ne_nil sep cs
      cases hp : pieces sep cs with
      | nil => exact absurd hp hne
      | cons p ps => simp [hc]

theorem not_mem_of_mem_pieces {p : List Char} (h : p ∈ pieces sep cs) : sep ∉ p := by
  induction cs generalizing p with
  | nil =>
    rw [pieces, List.mem_singleton] at h
    simp [h]
  | cons c cs ih =>
    rw [pieces] at h
    split at h
    · rcases List.mem_cons.1 h with rfl | h
      · simp
      · exact ih h
    · next hc =>
      split at h
      · next hp => exact absurd hp (pieces_ne_nil sep cs)
      · next q qs hp =>
        rcases List.mem_cons.1 h with rfl | h
        · have hq : sep ∉ q := ih (hp ▸ List.mem_cons_self)
          simp [Ne.symm hc, hq]
        · exact ih (hp ▸ List.mem_cons_of_mem _ h)

theorem pieces_eq_iff : pieces sep cs = parts ↔ Separated sep cs parts := by
  constructor
  · rintro rfl
    refine ⟨?_, fun p hp => not_mem_of_mem_pieces hp, pieces_ne_nil sep cs⟩
    rw [pieces_eq_splitOn, List.intercalate_splitOn]
  · rintro ⟨rfl, hclean, hne⟩
    rw [pieces_eq_splitOn, List.splitOn_intercalate sep hclean hne]

theorem dropTail?_eq_some_iff : dropTail? tail cs = some front ↔ cs = front ++ tail := by
  unfold dropTail?
  constructor
  · intro h
    split at h
    · next hs =>
      obtain ⟨init, rfl⟩ := List.isSuffixOf_iff_suffix.1 hs
      simp at h
      rw [h]
    · cases h
  · rintro rfl
    have hs : tail.isSuffixOf (front ++ tail) := List.isSuffixOf_iff_suffix.2 ⟨front, rfl⟩
    simp [hs]

theorem mem_of_mem_intercalate (h : c ∈ [sep].intercalate parts) : c = sep ∨ ∃ p ∈ parts, c ∈ p := by
  induction parts with
  | nil => simp at h
  | cons p ps ih =>
    by_cases hps : ps = []
    · subst hps
      rw [List.intercalate_singleton] at h
      exact .inr ⟨p, List.mem_cons_self, h⟩
    · rw [List.intercalate_cons_of_ne_nil hps, List.mem_append, List.mem_append] at h
      rcases h with (h | h) | h
      · exact .inr ⟨p, List.mem_cons_self, h⟩
      · exact .inl (List.mem_singleton.1 h)
      · rcases ih h with hc | ⟨q, hq, hc⟩
        · exact .inl hc
        · exact .inr ⟨q, List.mem_cons_of_mem _ hq, hc⟩

/-! ## Numerals -/

/-- `cs` writes the integer `n`: at least one ASCII digit, with a sign in front of them or none. -/
inductive Numeral : List Char → Int → Prop where
  | unsigned {ds : List Char} (hne : ds ≠ []) (hds : ∀ c ∈ ds, c.isDigit) :
    Numeral ds (Nat.ofDigitChars 10 ds 0)
  | plus {ds : List Char} (hne : ds ≠ []) (hds : ∀ c ∈ ds, c.isDigit) :
    Numeral ('+' :: ds) (Nat.ofDigitChars 10 ds 0)
  | minus {ds : List Char} (hne : ds ≠ []) (hds : ∀ c ∈ ds, c.isDigit) :
    Numeral ('-' :: ds) (-Nat.ofDigitChars 10 ds 0)

theorem digit?_eq_some_iff {d : Nat} : digit? c = some d ↔ c.isDigit ∧ c.toNat - '0'.toNat = d := by
  have hdigit : ('0' ≤ c ∧ c ≤ '9') ↔ c.isDigit := by
    rw [Char.isDigit_iff_toNat]
    exact Iff.rfl
  unfold digit?
  rw [if_congr hdigit rfl rfl]
  split
  · next h => simp [h]
  · next h => simp [h]

/-- Further digits make a number no smaller. -/
theorem le_ofDigitChars (ds : List Char) (n : Nat) : n ≤ Nat.ofDigitChars 10 ds n := by
  rw [Nat.ofDigitChars_eq_ofDigitChars_zero]
  have hpow : 0 < 10 ^ ds.length := Nat.pow_pos (by decide)
  have hmul : 1 * n ≤ 10 ^ ds.length * n := Nat.mul_le_mul_right n hpow
  omega

/-- Reading stops early only when the number is too large whatever follows. -/
theorem readDigits_eq_ok_iff {limit n m : Nat} {beyond : NumberError} (hn : n ≤ limit) :
    readDigits limit beyond n cs = .ok m ↔
      (∀ c ∈ cs, c.isDigit) ∧ Nat.ofDigitChars 10 cs n = m ∧ m ≤ limit := by
  induction cs generalizing n with
  | nil =>
    simp only [readDigits, Nat.ofDigitChars_nil, Except.ok.injEq]
    constructor
    · rintro rfl
      exact ⟨nofun, rfl, hn⟩
    · exact fun h => h.2.1
  | cons c cs ih =>
    rw [readDigits, Nat.ofDigitChars_cons, List.forall_mem_cons]
    cases hd : digit? c with
    | none =>
      have hc : ¬ c.isDigit := by
        intro hc
        rw [digit?_eq_some_iff.2 ⟨hc, rfl⟩] at hd
        cases hd
      simp [hc]
    | some d =>
      obtain ⟨hc, rfl⟩ := digit?_eq_some_iff.1 hd
      by_cases hfits : 10 * n + (c.toNat - '0'.toNat) ≤ limit
      · dsimp only
        rw [if_pos hfits, ih hfits, and_iff_right hc]
      · dsimp only
        rw [if_neg hfits]
        refine iff_of_false nofun ?_
        rintro ⟨-, rfl, hle⟩
        exact hfits ((le_ofDigitChars cs _).trans hle)

theorem readNatural_eq_ok_iff {limit m : Nat} {beyond : NumberError} :
    readNatural limit beyond cs = .ok m ↔
      cs ≠ [] ∧ (∀ c ∈ cs, c.isDigit) ∧ Nat.ofDigitChars 10 cs 0 = m ∧ m ≤ limit := by
  cases cs with
  | nil => simp [readNatural]
  | cons c cs =>
    rw [readNatural, readDigits_eq_ok_iff (Nat.zero_le _)]
    simp

theorem Numeral.ne_nil {n : Int} (h : Numeral cs n) : cs ≠ [] := by
  cases h with
  | unsigned hne => exact hne
  | plus => simp
  | minus => simp

/-- Neither white space nor a slash. -/
def Plain (c : Char) : Prop := ¬ isBlank c ∧ c ≠ '/'

instance (c : Char) : Decidable (Plain c) := inferInstanceAs (Decidable (_ ∧ _))

theorem plain_of_isDigit (h : c.isDigit) : Plain c := by
  obtain ⟨hlow, hhigh⟩ := Char.isDigit_iff_toNat.1 h
  have hzero : '0'.toNat = 48 := rfl
  have hnine : '9'.toNat = 57 := rfl
  constructor
  · simp only [isBlank, Bool.or_eq_true, Bool.and_eq_true, decide_eq_true_eq, beq_iff_eq]
    omega
  · rintro rfl
    exact absurd h (by decide)

theorem Numeral.plain {n : Int} (h : Numeral cs n) (hc : c ∈ cs) : Plain c := by
  cases h with
  | unsigned _ hds => exact plain_of_isDigit (hds c hc)
  | plus _ hds =>
    rcases List.mem_cons.1 hc with rfl | hc
    · decide
    · exact plain_of_isDigit (hds c hc)
  | minus _ hds =>
    rcases List.mem_cons.1 hc with rfl | hc
    · decide
    · exact plain_of_isDigit (hds c hc)

theorem numeral_minus_iff {n : Int} : Numeral ('-' :: ds) n ↔
    ds ≠ [] ∧ (∀ c ∈ ds, c.isDigit) ∧ -(Nat.ofDigitChars 10 ds 0 : Int) = n := by
  constructor
  · intro h
    cases h with
    | unsigned _ hds => exact absurd (hds '-' List.mem_cons_self) (by decide)
    | minus hne hds => exact ⟨hne, hds, rfl⟩
  · rintro ⟨hne, hds, rfl⟩
    exact .minus hne hds

theorem numeral_plus_iff {n : Int} : Numeral ('+' :: ds) n ↔
    ds ≠ [] ∧ (∀ c ∈ ds, c.isDigit) ∧ (Nat.ofDigitChars 10 ds 0 : Int) = n := by
  constructor
  · intro h
    cases h with
    | unsigned _ hds => exact absurd (hds '+' List.mem_cons_self) (by decide)
    | plus hne hds => exact ⟨hne, hds, rfl⟩
  · rintro ⟨hne, hds, rfl⟩
    exact .plus hne hds

theorem numeral_cons_iff {n : Int} (hminus : c ≠ '-') (hplus : c ≠ '+') : Numeral (c :: cs) n ↔
    c :: cs ≠ [] ∧ (∀ d ∈ c :: cs, d.isDigit) ∧ (Nat.ofDigitChars 10 (c :: cs) 0 : Int) = n := by
  constructor
  · intro h
    cases h with
    | unsigned hne hds => exact ⟨hne, hds, rfl⟩
    | plus => exact absurd rfl hplus
    | minus => exact absurd rfl hminus
  · rintro ⟨hne, hds, rfl⟩
    exact .unsigned hne hds

/-- The limit on the digits is what keeps the number within 64 bits. -/
theorem map_readNatural_eq_ok_iff {limit : Nat} {beyond : NumberError} {sign : Nat → Int}
    {x : Int64} (hfits : ∀ m, m ≤ limit ↔ Checked.Fits (sign m)) :
    (fun m => Int64.ofInt (sign m)) <$> readNatural limit beyond ds = .ok x ↔
      ds ≠ [] ∧ (∀ c ∈ ds, c.isDigit) ∧ sign (Nat.ofDigitChars 10 ds 0) = x.toInt := by
  constructor
  · intro h
    obtain ⟨m, hm, rfl⟩ := Checked.map_eq_ok h
    obtain ⟨hne, hds, rfl, hle⟩ := readNatural_eq_ok_iff.1 hm
    obtain ⟨hlow, hhigh⟩ := (hfits _).1 hle
    exact ⟨hne, hds, (Int64.toInt_ofInt_of_le hlow hhigh).symm⟩
  · rintro ⟨hne, hds, hx⟩
    have hle := (hfits (Nat.ofDigitChars 10 ds 0)).2 (hx ▸ Checked.fits_toInt x)
    rw [readNatural_eq_ok_iff.2 ⟨hne, hds, rfl, hle⟩]
    show Except.ok (Int64.ofInt (sign _)) = _
    rw [hx, Int64.ofInt_toInt]

theorem readInt64_eq_ok_iff {x : Int64} : readInt64 cs = .ok x ↔ Numeral cs x.toInt := by
  have hnegative : ∀ m : Nat, m ≤ 0x8000000000000000 ↔ Checked.Fits (-m) := by
    unfold Checked.Fits
    omega
  have hpositive : ∀ m : Nat, m ≤ 0x7fffffffffffffff ↔ Checked.Fits m := by
    unfold Checked.Fits
    omega
  unfold readInt64
  split
  · exact iff_of_false nofun fun h => h.ne_nil rfl
  · rw [numeral_minus_iff, map_readNatural_eq_ok_iff hnegative]
  · rw [numeral_plus_iff, map_readNatural_eq_ok_iff hpositive]
  · next c cs hminus hplus =>
    rw [numeral_cons_iff hminus hplus, map_readNatural_eq_ok_iff hpositive]

/-- What is printed is a numeral. -/
theorem numeral_toString (n : Int) : Numeral (toString n).toList n := by
  rw [Int.toString_eq_repr, Int.repr_eq_if]
  have hdigits : ∀ m, ∀ c ∈ Nat.toDigits 10 m, c.isDigit := fun m c =>
    Nat.isDigit_of_mem_toDigits (by decide) (by decide)
  by_cases hn : 0 ≤ n
  · have h := Numeral.unsigned (Nat.toDigits_ne_nil (n := n.toNat) (b := 10)) (hdigits n.toNat)
    rw [Nat.ofDigitChars_ten_toDigits, Int.toNat_of_nonneg hn] at h
    simpa [hn] using h
  · have h := Numeral.minus (Nat.toDigits_ne_nil (n := (-n).toNat) (b := 10)) (hdigits (-n).toNat)
    rw [Nat.ofDigitChars_ten_toDigits, Int.toNat_of_nonneg (by omega), Int.neg_neg] at h
    simpa [hn] using h

end PlanSearch.Text
