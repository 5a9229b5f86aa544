import PlanSearch.Score.Basic
import PlanSearch.Text.Blank
import PlanSearch.Text.Number

/-!
# The text of a score

Levels are written from the most important one, each as an integer and the level's suffix, with
slashes between: `-1hard/0soft`. A simple score is a bare integer. Reading allows white space
around the text and around each part.
-/

namespace PlanSearch

def Importance.describe : Importance → String
  | hard => "Hard"
  | medium => "Medium"
  | soft => "Soft"

/-- How one level is written and called. -/
structure LevelFormat where
  name : String
  suffix : String

namespace Shape

def formats : Shape → List LevelFormat
  | simple => [⟨"score", ""⟩]
  | hardSoft => [⟨"hard", "hard"⟩, ⟨"soft", "soft"⟩]
  | hardMediumSoft => [⟨"hard", "hard"⟩, ⟨"medium", "medium"⟩, ⟨"soft", "soft"⟩]

/-- The name of the kind of score. -/
def title : Shape → String
  | simple => "SimpleScore"
  | hardSoft => "HardSoftScore"
  | hardMediumSoft => "HardMediumSoftScore"

theorem length_formats (sh : Shape) : sh.formats.length = sh.size := by cases sh <;> rfl

end Shape

/-- Why a text denotes no score. -/
inductive ScoreTextError where
  | missingLevel (text : String) (level : LevelFormat)
  | badSuffix (part : String) (level : LevelFormat)
  | badNumber (number : String) (level : LevelFormat) (cause : Text.NumberError)
  | tooManyLevels (text : String)

/-- The wording for a score of shape `sh`. -/
def ScoreTextError.message (sh : Shape) : ScoreTextError → String
  | missingLevel text level => s!"{sh.title} '{text}' is missing the {level.name} level"
  | badSuffix part level => s!"{level.name} level '{part}' must end with '{level.suffix}'"
  | badNumber number level cause => s!"invalid {level.name} level '{number}': {cause.message}"
  | tooManyLevels text => s!"{sh.title} '{text}' has too many levels"

namespace Score

variable {sh : Shape}

/-! ## Printing -/

def toText (a : Score sh) : String :=
  "/".intercalate (List.zipWith (fun x f => toString x.toInt ++ f.suffix) a.levels sh.formats)

instance : ToString (Score sh) := ⟨toText⟩

/-- The score with its kind, for diagnostics. -/
def describe (a : Score sh) : String :=
  sh.title ++ "(" ++ ", ".intercalate (a.levels.map fun x => toString x.toInt) ++ ")"

/-! ## Reading -/

/-- One level: blanks around it are skipped, the suffix follows the number at once. -/
def readLevel (level : LevelFormat) (part : List Char) : Except ScoreTextError Int64 :=
  let part := Text.trim part
  match Text.dropTail? level.suffix.toList part with
  | none => .error (.badSuffix (String.ofList part) level)
  | some number => (Text.readInt64 number).mapError (.badNumber (String.ofList number) level)

/-- As many parts as there are levels. -/
def readLevels (text : String) : List LevelFormat → List (List Char) →
    Except ScoreTextError (List Int64)
  | [], [] => .ok []
  | [], _ :: _ => .error (.tooManyLevels text)
  | level :: _, [] => .error (.missingLevel text level)
  | level :: levels, part :: parts =>
    match readLevel level part with
    | .error e => .error e
    | .ok x => (x :: ·) <$> readLevels text levels parts

theorem length_of_readLevels {text : String} {levels : List LevelFormat} {parts : List (List Char)}
    {xs : List Int64} (h : readLevels text levels parts = .ok xs) : xs.length = levels.length := by
  fun_induction readLevels text levels parts generalizing xs with
  | case1 => cases h; rfl
  | case2 => cases h
  | case3 => cases h
  | case4 => cases h
  | case5 level levels part parts x hx ih =>
    cases hr : readLevels text levels parts with
    | error e => rw [hr] at h; cases h
    | ok ys => rw [hr] at h; cases h; simp [ih hr]

def read (text : String) : Except ScoreTextError (Score sh) :=
  let cs := Text.trim text.toList
  match h : readLevels (String.ofList cs) sh.formats (Text.pieces '/' cs) with
  | .error e => .error e
  | .ok xs => .ok ⟨xs, (length_of_readLevels h).trans sh.length_formats⟩

end Score

end PlanSearch
