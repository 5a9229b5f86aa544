import PlanSearch.Proofs.Text.Reading
import PlanSearch.Score.Text

/-!
# Scores as texts

A text denotes a score if, without the white space around it, it falls at its slashes into one part
for each level, and each part, again without the white space around it, is a numeral and the suffix
of the level. These texts are read, and no others; what is printed is one of them.

    readLevel level part = .ok x ↔ level.Denotes part x                     (readLevel_eq_ok_iff)
    read text = .ok a ↔ Denotes text a, and read a.toText = .ok a            (read_denoted)
-/

namespace PlanSearch

variable {sh : Shape} {level : LevelFormat} {x : Int64} {text : String} {a : Score sh}

/-- The part writes the number `x` on the level: the suffix follows the numeral at once. -/
def LevelFormat.Denotes (level : LevelFormat) (part : List Char) (x : Int64) : Prop :=
  ∃ number, Text.Trimmed part (number ++ level.suffix.toList) ∧ Text.Numeral number x.toInt

namespace Score

/-- The text writes the levels of the score, with as many parts as there are levels. -/
def Denotes (text : String) (a : Score sh) : Prop :=
  ∃ cs parts, Text.Trimmed text.toList cs ∧ Text.Separated '/' cs parts ∧
    List.Forall₂ (fun q part => q.1.Denotes part q.2) (sh.formats.zip a.levels) parts

/-! ## Reading -/

theorem readLevel_eq_ok_iff {part : List Char} :
    readLevel level part = .ok x ↔ level.Denotes part x := by
  unfold readLevel LevelFormat.Denotes
  constructor
  · intro h
    dsimp only at h
    split at h
    · cases h
    · next number hnumber =>
      refine ⟨number, ?_, ?_⟩
      · rw [← Text.dropTail?_eq_some_iff.1 hnumber]
        exact Text.trimmed_trim part
      · rw [← Text.readInt64_eq_ok_iff]
        cases hread : Text.readInt64 number with
        | error e =>
          rw [hread] at h
          cases h
        | ok y =>
          rw [hread] at h
          cases h
          rfl
  · rintro ⟨number, htrim, hnumber⟩
    rw [Text.trim_eq_iff.2 htrim]
    simp only [Text.dropTail?_eq_some_iff.2 rfl, Text.readInt64_eq_ok_iff.2 hnumber]
    rfl

theorem readLevels_eq_ok_iff {levels : List LevelFormat} {parts : List (List Char)}
    {xs : List Int64} : readLevels text levels parts = .ok xs ↔
      xs.length = levels.length ∧
        List.Forall₂ (fun q part => q.1.Denotes part q.2) (levels.zip xs) parts := by
  fun_induction readLevels text levels parts generalizing xs with
  | case1 =>
    constructor
    · intro h
      cases h
      exact ⟨rfl, .nil⟩
    · rintro ⟨hlength, -⟩
      rw [List.eq_nil_of_length_eq_zero hlength]
  | case2 part parts =>
    constructor
    · intro h
      cases h
    · rintro ⟨-, h⟩
      cases h
  | case3 level levels =>
    constructor
    · intro h
      cases h
    · rintro ⟨hlength, h⟩
      cases xs with
      | nil => cases hlength
      | cons x xs => cases h
  | case4 level levels part parts e he =>
    constructor
    · intro h
      cases h
    rintro ⟨hlength, h⟩
    cases xs with
    | nil => cases hlength
    | cons x xs =>
      cases h with
      | cons hx _ =>
        rw [readLevel_eq_ok_iff.2 hx] at he
        cases he
  | case5 level levels part parts x hx ih =>
    constructor
    · intro h
      obtain ⟨ys, hys, rfl⟩ := Checked.map_eq_ok h
      obtain ⟨hlength, hrest⟩ := ih.1 hys
      exact ⟨congrArg Nat.succ hlength, .cons (readLevel_eq_ok_iff.1 hx) hrest⟩
    · rintro ⟨hlength, h⟩
      cases xs with
      | nil => cases hlength
      | cons y ys =>
        cases h with
        | cons hy hrest =>
          rw [readLevel_eq_ok_iff.2 hy] at hx
          cases hx
          rw [ih.2 ⟨Nat.succ.inj hlength, hrest⟩]
          rfl

theorem read_eq_ok_iff : (read text : Except ScoreTextError (Score sh)) = .ok a ↔ Denotes text a := by
  have hread : (read text : Except ScoreTextError (Score sh)) = .ok a ↔
      readLevels (String.ofList (Text.trim text.toList)) sh.formats
        (Text.pieces '/' (Text.trim text.toList)) = .ok a.levels := by
    unfold read
    dsimp only
    split
    · next e he =>
      rw [he]
      exact iff_of_false nofun nofun
    · next xs hxs =>
      constructor
      · intro h
        cases h
        exact hxs
      · intro h
        have hlevels : xs = a.levels := Except.ok.inj (hxs.symm.trans h)
        exact congrArg Except.ok (Score.ext hlevels)
  rw [hread, readLevels_eq_ok_iff, a.length_levels, sh.length_formats, and_iff_right rfl]
  constructor
  · intro h
    exact ⟨_, _, Text.trimmed_trim _, Text.pieces_eq_iff.1 rfl, h⟩
  · rintro ⟨cs, parts, htrim, hparts, h⟩
    rw [Text.trim_eq_iff.2 htrim, Text.pieces_eq_iff.2 hparts]
    exact h

/-! ## Printing -/

/-- The characters of one level. -/
def levelText (level : LevelFormat) (x : Int64) : List Char :=
  (toString x.toInt).toList ++ level.suffix.toList

theorem toList_toText (a : Score sh) :
    a.toText.toList = ['/'].intercalate (List.zipWith levelText sh.formats a.levels) := by
  unfold toText levelText
  rw [String.toList_intercalate, List.map_zipWith, List.zipWith_comm]
  simp only [String.toList_append]
  rfl

/-- Neither white space nor a slash stands in a suffix. -/
theorem plain_suffix (sh : Shape) :
    ∀ level ∈ sh.formats, ∀ c ∈ level.suffix.toList, Text.Plain c := by
  have hall : sh.formats.all fun level => level.suffix.toList.all fun c => Text.Plain c := by
    cases sh <;> decide
  intro level hlevel c hc
  exact of_decide_eq_true (List.all_eq_true.1 (List.all_eq_true.1 hall level hlevel) c hc)

theorem plain_levelText (hlevel : level ∈ sh.formats) : ∀ c ∈ levelText level x, Text.Plain c := by
  intro c hc
  rcases List.mem_append.1 hc with hc | hc
  · exact (Text.numeral_toString x.toInt).plain hc
  · exact plain_suffix sh level hlevel c hc

theorem levelText_denotes (hlevel : level ∈ sh.formats) : level.Denotes (levelText level x) x :=
  ⟨_, Text.trimmed_self fun c hc => (plain_levelText hlevel c hc).1, Text.numeral_toString x.toInt⟩

theorem denotes_toText (a : Score sh) : Denotes a.toText a := by
  have hparts : ∀ p ∈ List.zipWith levelText sh.formats a.levels, ∀ c ∈ p, Text.Plain c := by
    rw [← List.map_uncurry_zip_eq_zipWith]
    intro p hp
    obtain ⟨⟨level, x⟩, hmem, rfl⟩ := List.mem_map.1 hp
    exact plain_levelText (List.of_mem_zip hmem).1
  refine ⟨a.toText.toList, List.zipWith levelText sh.formats a.levels, ?_, ?_, ?_⟩
  · apply Text.trimmed_self
    intro c hc
    rw [toList_toText] at hc
    rcases Text.mem_of_mem_intercalate hc with rfl | ⟨p, hp, hc⟩
    · decide
    · exact (hparts p hp c hc).1
  · refine ⟨(toList_toText a).symm, fun p hp hslash => (hparts p hp '/' hslash).2 rfl, ?_⟩
    intro hnil
    have hlength := congrArg List.length hnil
    rw [List.length_zipWith, sh.length_formats, a.length_levels] at hlength
    cases sh <;> cases hlength
  · rw [← List.map_uncurry_zip_eq_zipWith, List.forall₂_map_right_iff, List.forall₂_same]
    intro p hp
    exact levelText_denotes (List.of_mem_zip hp).1

/-- A text is read exactly if it denotes a score, and it is read as that score; so a printed score
is read back. -/
theorem read_denoted : (∀ (text : String) (a : Score sh), read text = .ok a ↔ Denotes text a) ∧
    ∀ a : Score sh, read a.toText = .ok a :=
  ⟨fun _ _ => read_eq_ok_iff, fun a => read_eq_ok_iff.2 (denotes_toText a)⟩

/-- White space, signs and leading zeros do not matter. -/
example : (read "\u2003+007hard /\t-0soft\n" : Except ScoreTextError (Score .hardSoft)).toOption =
    some ⟨[7, 0], rfl⟩ := by
  decide +kernel

end Score

end PlanSearch
