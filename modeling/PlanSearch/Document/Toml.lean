import PlanSearch.Checked
import PlanSearch.Document.Basic

/-!
# TOML

A TOML text is a sequence of lines: entries, table headers, comments. Headers and dotted keys build
one tree of tables. A table may be declared once, may be implied by the headers of tables within it
before that, and a table that arose from dotted keys is only added to by dotted keys.
-/

namespace PlanSearch.Toml

/-! ## Tables -/

/-- How a table came about. -/
inductive TableKind where
  | declared
  /-- By the header of a table within it. -/
  | implied
  /-- By a dotted key. -/
  | dotted
  deriving DecidableEq, Repr

/-- What a key stands for. -/
inductive Item where
  /-- A value, to which nothing can be added. -/
  | value (d : Document)
  | table (kind : TableKind) (entries : List (String × Item))
  /-- The entries of the tables under one `[[header]]`, newest first. -/
  | tables (newest : List (String × Item)) (others : List (List (String × Item)))

structure Table where
  kind : TableKind
  entries : List (String × Item)

namespace Table

def find? (t : Table) (key : String) : Option Item := t.entries.lookup key

/-- Puts an item in the place of the one of this key, or behind all others. -/
def put (t : Table) (key : String) (item : Item) : Table :=
  if (t.find? key).isSome then
    { t with entries := t.entries.map fun (k, old) => (k, if k = key then item else old) }
  else { t with entries := t.entries ++ [(key, item)] }

/-- Changes the table that `path` leads to; tables on the way are made where there are none. -/
def within (made : TableKind) (f : Table → Option Table) : List String → Table → Option Table
  | [], t => f t
  | key :: path, t =>
    match t.find? key with
    | none => do
      let inner ← within made f path ⟨made, []⟩
      return t.put key (.table inner.kind inner.entries)
    | some (.value _) => none
    | some (.table kind entries) =>
      if made = .dotted ∧ kind = .declared then none
      else do
        let inner ← within made f path ⟨kind, entries⟩
        return t.put key (.table inner.kind inner.entries)
    | some (.tables newest others) => do
      let inner ← within made f path ⟨.declared, newest⟩
      return t.put key (.tables inner.entries others)

/-- Enters a value under a dotted key. -/
def enter (path : List String) (key : String) (d : Document) (t : Table) : Option Table :=
  within .dotted (fun inner =>
    if (inner.kind = .dotted) ↔ path = [] then none
    else if (inner.find? key).isSome then none
    else some (inner.put key (.value d))) path t

/-- Declares a table. -/
def declare (path : List String) (key : String) (t : Table) : Option Table :=
  within .implied (fun outer =>
    match outer.find? key with
    | none => some (outer.put key (.table .declared []))
    | some (.table .implied entries) => some (outer.put key (.table .declared entries))
    | _ => none) path t

/-- Declares the next table of a list of tables. -/
def declareNext (path : List String) (key : String) (t : Table) : Option Table :=
  within .implied (fun outer =>
    match outer.find? key with
    | none => some (outer.put key (.tables [] []))
    | some (.tables newest others) => some (outer.put key (.tables [] (newest :: others)))
    | _ => none) path t

end Table

mutual

def Item.toDocument : Item → Document
  | .value d => d
  | .table _ entries => .table (entriesToDocuments entries)
  | .tables newest others =>
    .list ((.table (entriesToDocuments newest) :: tablesToDocuments others).reverse)

def entriesToDocuments : List (String × Item) → List (String × Document)
  | [] => []
  | e :: es => entryToDocument e :: entriesToDocuments es

def entryToDocument : String × Item → String × Document
  | (key, item) => (key, item.toDocument)

def tablesToDocuments : List (List (String × Item)) → List Document
  | [] => []
  | t :: ts => .table (entriesToDocuments t) :: tablesToDocuments ts

end

/-! ## Characters -/

/-- What a reader takes from the front of a text, and what it leaves. -/
abbrev Reader (α : Type) : Type := List Char → Option (α × List Char)

def isSpace (c : Char) : Bool := c = ' ' || c = '\t'

/-- A control that may not stand in a text or comment. -/
def isForbidden (c : Char) : Bool := (c.toNat < 32 && c ≠ '\t') || c.toNat = 127

def skipSpaces (cs : List Char) : List Char := cs.dropWhile isSpace

/-- The end of a line, if the text stands there. -/
def lineEnd? : List Char → Option (List Char)
  | [] => some []
  | '\n' :: cs => some cs
  | '\r' :: '\n' :: cs => some cs
  | _ => none

/-- A comment up to the end of its line. -/
def skipComment : List Char → Option (List Char)
  | [] => some []
  | c :: cs =>
    match lineEnd? (c :: cs) with
    | some _ => some (c :: cs)
    | none => if isForbidden c then none else skipComment cs

/-- Spaces and perhaps a comment up to the end of a line, which there has to be. -/
def finishLine (cs : List Char) : Option (List Char) :=
  match skipSpaces cs with
  | '#' :: cs => (skipComment cs).bind lineEnd?
  | cs => lineEnd? cs

/-- Spaces, line ends and comments, of which there are at most `fuel`. -/
def skipLayout : Nat → List Char → Option (List Char)
  | 0, _ => none
  | fuel + 1, cs =>
    match skipSpaces cs with
    | '#' :: cs => (skipComment cs).bind (skipLayout fuel)
    | '\n' :: cs => skipLayout fuel cs
    | '\r' :: '\n' :: cs => skipLayout fuel cs
    | cs => some cs

/-! ## Texts -/

/-- The character of a code point in hexadecimal. -/
def codePoint? (digits : List Char) : Option Char :=
  (Bare.digits? 16 digits).bind fun n =>
    if n < 0xD800 ∨ (0xDFFF < n ∧ n < 0x110000) then some (Char.ofNat n) else none

/-- The character behind a backslash. -/
def readEscape : Reader Char
  | 'b' :: cs => some ('\x08', cs)
  | 't' :: cs => some ('\t', cs)
  | 'n' :: cs => some ('\n', cs)
  | 'f' :: cs => some ('\x0c', cs)
  | 'r' :: cs => some ('\r', cs)
  | '"' :: cs => some ('"', cs)
  | '\\' :: cs => some ('\\', cs)
  | 'u' :: cs =>
    if (cs.take 4).length = 4 then (codePoint? (cs.take 4)).map (·, cs.drop 4) else none
  | 'U' :: cs =>
    if (cs.take 8).length = 8 then (codePoint? (cs.take 8)).map (·, cs.drop 8) else none
  | _ => none

/-- The rest of a text in double quotes. -/
def readBasic : Nat → Reader (List Char)
  | 0, _ => none
  | _ + 1, '"' :: cs => some ([], cs)
  | fuel + 1, '\\' :: cs => do
    let (c, cs) ← readEscape cs
    let (rest, cs) ← readBasic fuel cs
    return (c :: rest, cs)
  | fuel + 1, c :: cs =>
    if isForbidden c then none
    else do
      let (rest, cs) ← readBasic fuel cs
      return (c :: rest, cs)
  | _ + 1, [] => none

/-- The rest of a text in single quotes. -/
def readLiteral : Reader (List Char)
  | [] => none
  | '\'' :: cs => some ([], cs)
  | c :: cs =>
    if isForbidden c then none
    else do
      let (rest, cs) ← readLiteral cs
      return (c :: rest, cs)

/-- The rest of a text in triple quotes `q`, up to two of which may stand before the closing
ones. -/
def readLong (q : Char) : Nat → Reader (List Char)
  | 0, _ => none
  | fuel + 1, cs =>
    let quotes := (cs.takeWhile (· = q)).length
    if 3 ≤ quotes then
      if quotes ≤ 5 then some (List.replicate (quotes - 3) q, cs.drop quotes) else none
    else
      match cs with
      | [] => none
      | c :: cs =>
        if c = '\\' ∧ q = '"' then
          match finishEscaped cs with
          | some cs => readLong q fuel (cs.dropWhile fun c => isSpace c || c = '\n' || c = '\r')
          | none => do
            let (c, cs) ← readEscape cs
            let (rest, cs) ← readLong q fuel cs
            return (c :: rest, cs)
        else if isForbidden c ∧ c ≠ '\n' ∧ (lineEnd? (c :: cs)).isNone then none
        else do
          let (rest, cs) ← readLong q fuel cs
          return (c :: rest, cs)
where
  /-- What follows a backslash at the end of a line. -/
  finishEscaped (cs : List Char) : Option (List Char) :=
    match skipSpaces cs with
    | [] => none
    | cs => lineEnd? cs

/-- A text, whichever way it is quoted. -/
def readText : Reader String
  | '"' :: '"' :: '"' :: cs =>
    let cs := if cs.head? = some '\n' ∨ cs.head? = some '\r' then (lineEnd? cs).getD cs else cs
    (readLong '"' (cs.length + 1) cs).map fun (s, cs) => (String.ofList s, cs)
  | '\'' :: '\'' :: '\'' :: cs =>
    let cs := if cs.head? = some '\n' ∨ cs.head? = some '\r' then (lineEnd? cs).getD cs else cs
    (readLong '\'' (cs.length + 1) cs).map fun (s, cs) => (String.ofList s, cs)
  | '"' :: cs => (readBasic (cs.length + 1) cs).map fun (s, cs) => (String.ofList s, cs)
  | '\'' :: cs => (readLiteral cs).map fun (s, cs) => (String.ofList s, cs)
  | _ => none

/-! ## Keys -/

def isKeyChar (c : Char) : Bool := c.isAlphanum || c = '_' || c = '-'

/-- One part of a key. -/
def readKeyPart : Reader String
  | '"' :: '"' :: '"' :: _ => none
  | '\'' :: '\'' :: '\'' :: _ => none
  | c :: cs =>
    if c = '"' ∨ c = '\'' then readText (c :: cs)
    else
      let (part, rest) := (c :: cs).span isKeyChar
      if part.isEmpty then none else some (String.ofList part, rest)
  | [] => none

/-- A key of parts with dots between them; the last part stands apart. -/
def readKey : Nat → Reader (List String × String)
  | 0, _ => none
  | fuel + 1, cs => do
    let (part, cs) ← readKeyPart (skipSpaces cs)
    match skipSpaces cs with
    | '.' :: cs =>
      let ((path, last), cs) ← readKey fuel cs
      return ((part :: path, last), cs)
    | cs => return (([], part), cs)

/-! ## Scalars -/

/-- Digits among which single underscores may stand between two digits. -/
def digitsOf? (isDigit : Char → Bool) : List Char → Option (List Char)
  | [] => none
  | [c] => if isDigit c then some [c] else none
  | c :: '_' :: cs => if isDigit c then (digitsOf? isDigit cs).map (c :: ·) else none
  | c :: cs => if isDigit c then (digitsOf? isDigit cs).map (c :: ·) else none

def isBaseDigit (base : Nat) (c : Char) : Bool := (Bare.digit? base c).isSome

/-- Decimal digits without a needless zero in front. -/
def decimalDigits? (cs : List Char) : Option (List Char) :=
  match cs with
  | '0' :: _ :: _ => none
  | cs => digitsOf? Char.isDigit cs

/-- The sign of a number, and the rest. -/
def splitSign : List Char → Bool × List Char
  | '-' :: cs => (true, cs)
  | '+' :: cs => (false, cs)
  | cs => (false, cs)

/-- A whole number, which has to be a 64-bit one. -/
def integer? (cs : List Char) : Option Int :=
  let inBase (base : Nat) (cs : List Char) : Option Int :=
    (digitsOf? (isBaseDigit base) cs).bind fun ds => (Bare.digits? base ds).map fun n => (n : Int)
  let n? : Option Int := match cs with
    | '0' :: 'x' :: cs => inBase 16 cs
    | '0' :: 'o' :: cs => inBase 8 cs
    | '0' :: 'b' :: cs => inBase 2 cs
    | cs =>
      let (negative, cs) := splitSign cs
      ((decimalDigits? cs).bind (Bare.digits? 10)).map fun n =>
        if negative then -(n : Int) else (n : Int)
  n?.bind fun n => if Checked.Fits n then some n else none

/-- The exponent of a number, whose digits may start with zeros. -/
def exponent? (cs : List Char) : Option Int :=
  let (negative, cs) := splitSign cs
  ((digitsOf? Char.isDigit cs).bind (Bare.digits? 10)).map fun n =>
    if negative then -(n : Int) else (n : Int)

/-- A decimal with a point, an exponent or both. -/
def decimal? (cs : List Char) : Option Float :=
  let (negative, cs) := splitSign cs
  let signed (x : Float) : Float := if negative then -x else x
  if cs = "inf".toList then some (signed (1.0 / 0.0))
  else if cs = "nan".toList then some (signed (0.0 / 0.0))
  else do
    let (mantissa, rest) := cs.span fun c => c ≠ 'e' && c ≠ 'E'
    let (whole, fraction) := mantissa.span (· ≠ '.')
    let whole ← decimalDigits? whole
    let fraction ← match fraction with
      | [] => some []
      | _ :: fraction => digitsOf? Char.isDigit fraction
    let e ← match rest with
      | [] => if fraction.isEmpty then none else some 0
      | _ :: rest => exponent? rest
    let n ← Bare.digits? 10 (whole ++ fraction)
    let x := Bare.scientific n (e - fraction.length)
    if x.isFinite then some (signed x) else none

/-- The scalar of a spelling without quotes. -/
def scalar? (cs : List Char) : Option Document :=
  if cs = "true".toList then some (.bool true)
  else if cs = "false".toList then some (.bool false)
  else match integer? cs with
    | some n => some (.integer n)
    | none => (decimal? cs).map .decimal

def isScalarChar (c : Char) : Bool := c.isAlphanum || c = '_' || c = '-' || c = '+' || c = '.'

/-! ## Values -/

mutual

/-- A value. -/
def readValue : Nat → Reader Document
  | 0, _ => none
  | fuel + 1, cs =>
    match cs with
    | '[' :: cs => do
      let (items, cs) ← readItems fuel cs
      return (.list items, cs)
    | '\x7b' :: cs => do
      let (t, cs) ← readInline fuel cs
      return ((Item.table .declared t.entries).toDocument, cs)
    | c :: cs =>
      if c = '"' ∨ c = '\'' then (readText (c :: cs)).map fun (s, cs) => (.text s, cs)
      else
        let (spelling, rest) := (c :: cs).span isScalarChar
        (scalar? spelling).map (·, rest)
    | [] => none

/-- The rest of a list; a comma may stand behind the last item. -/
def readItems : Nat → Reader (List Document)
  | 0, _ => none
  | fuel + 1, cs => do
    match ← skipLayout (cs.length + 1) cs with
    | ']' :: cs => return ([], cs)
    | cs =>
      let (d, cs) ← readValue fuel cs
      match ← skipLayout (cs.length + 1) cs with
      | ',' :: cs =>
        let (ds, cs) ← readItems fuel cs
        return (d :: ds, cs)
      | ']' :: cs => return ([d], cs)
      | _ => none

/-- The rest of an inline table. -/
def readInline : Nat → Reader Table
  | 0, _ => none
  | fuel + 1, cs =>
    match skipSpaces cs with
    | '\x7d' :: cs => some (⟨.declared, []⟩, cs)
    | cs => readInlineEntries fuel ⟨.declared, []⟩ cs

/-- The entries of an inline table up to its end; no comma stands behind the last one. -/
def readInlineEntries : Nat → Table → Reader Table
  | 0, _, _ => none
  | fuel + 1, t, cs => do
    let ((path, key), cs) ← readKey (cs.length + 1) cs
    match skipSpaces cs with
    | '=' :: cs =>
      let (d, cs) ← readValue fuel (skipSpaces cs)
      let t ← t.enter path key d
      match skipSpaces cs with
      | ',' :: cs => readInlineEntries fuel t cs
      | '\x7d' :: cs => return (t, cs)
      | _ => none
    | _ => none

end

/-! ## Lines -/

/-- The document so far, and where entries go at present. -/
structure State where
  root : Table := ⟨.declared, []⟩
  current : List String := []

/-- Enters a value in the current table. -/
def State.enter (s : State) (path : List String) (key : String) (d : Document) : Option State := do
  let root ← s.root.within .implied (Table.enter path key d) s.current
  return { s with root }

/-- Reads line after line. -/
def readLines : Nat → State → List Char → Option State
  | _, s, [] => some s
  | 0, _, _ => none
  | fuel + 1, s, cs =>
    match skipSpaces cs with
    | '[' :: '[' :: cs => do
      let ((path, key), cs) ← readKey (cs.length + 1) cs
      match cs with
      | ']' :: ']' :: cs =>
        let cs ← finishLine cs
        let root ← s.root.declareNext path key
        readLines fuel { root, current := path ++ [key] } cs
      | _ => none
    | '[' :: cs => do
      let ((path, key), cs) ← readKey (cs.length + 1) cs
      match cs with
      | ']' :: cs =>
        let cs ← finishLine cs
        let root ← s.root.declare path key
        readLines fuel { root, current := path ++ [key] } cs
      | _ => none
    | cs =>
      match finishLine cs with
      | some cs => readLines fuel s cs
      | none => do
        let ((path, key), cs) ← readKey (cs.length + 1) cs
        match cs with
        | '=' :: cs =>
          let (d, cs) ← readValue (cs.length + 1) (skipSpaces cs)
          let cs ← finishLine cs
          readLines fuel (← s.enter path key d) cs
        | _ => none

/-- The document of a text. -/
def read (text : String) : Except DocumentError Document :=
  let cs := text.toList
  match readLines cs.length {} cs with
  | some s => .ok (Item.table .declared s.root.entries).toDocument
  | none => .error .malformed

end PlanSearch.Toml
