import PlanSearch.Document.Basic

/-!
# YAML

The part of YAML that configurations are written in: maps and lists in block style, told apart by
indentation, or in flow style, told apart by brackets; scalars that are bare or quoted; tags and
comments. Block style is read line by line and flow style character by character. Scalars without
quotes stay bare.
-/

namespace PlanSearch.Yaml

/-- A line with something on it. -/
structure Line where
  indent : Nat
  /-- The line from its first character that is no space, comments included. -/
  body : List Char
  deriving DecidableEq, Repr

/-- What a reader takes from the front of its input, and what it leaves. -/
abbrev Reader (ι α : Type) : Type := ι → Option (α × ι)

/-! ## Characters -/

def isSpace (c : Char) : Bool := c = ' ' || c = '\t'

def isLayout (c : Char) : Bool := isSpace c || c = '\n'

def isFlowMark (c : Char) : Bool := [',', '[', ']', '\x7b', '\x7d'].contains c

/-- Characters that a bare scalar does not start with. -/
def isIndicator (c : Char) : Bool :=
  isFlowMark c || ['#', '&', '*', '!', '|', '>', '\'', '"', '%', '@', '\x60'].contains c

/-- Nothing but spaces and perhaps a comment. -/
def isRemark (cs : List Char) : Bool :=
  match cs.dropWhile isSpace with
  | [] => true
  | '#' :: _ => true
  | _ => false

/-- Nothing follows but spaces, and after a space perhaps a comment. -/
def isLineEnd (cs : List Char) : Bool := isRemark cs && cs.head? ≠ some '#'

def trimEnd (cs : List Char) : List Char := (cs.reverse.dropWhile isLayout).reverse

/-! ## Lines -/

/-- A text cut at line ends. -/
def cutLines : List Char → List (List Char)
  | [] => [[]]
  | '\r' :: '\n' :: cs => [] :: cutLines cs
  | c :: cs =>
    if c = '\n' ∨ c = '\r' then [] :: cutLines cs
    else match cutLines cs with
      | [] => [[c]]
      | l :: ls => (c :: l) :: ls

/-- The lines with something on them; tabs do not indent. -/
def readLines : List (List Char) → Option (List Line)
  | [] => some []
  | l :: ls =>
    if isRemark l then readLines ls
    else
      let (spaces, body) := l.span (· = ' ')
      if body.head? = some '\t' then none
      else (readLines ls).map (⟨spaces.length, body⟩ :: ·)

/-- Whether a line stands between documents. -/
def isMark (mark : String) (l : Line) : Bool :=
  l.indent = 0 && l.body.take 3 = mark.toList && isLineEnd (l.body.drop 3)

/-- The lines of the only document; a second one is refused. -/
def onlyDocument (ls : List Line) : Option (List Line) :=
  let ls := match ls with
    | l :: rest => if isMark "---" l then rest else l :: rest
    | [] => []
  let (document, rest) := ls.span fun l => !isMark "---" l && !isMark "..." l
  if rest.all (isMark "...") then some document else none

/-! ## Quoted scalars -/

/-- The character of a code point in hexadecimal, of which `n` digits follow. -/
def readCodePoint (n : Nat) : Reader (List Char) Char := fun cs =>
  if (cs.take n).length = n then
    (Bare.digits? 16 (cs.take n)).bind fun code =>
      if code < 0xD800 ∨ (0xDFFF < code ∧ code < 0x110000) then some (Char.ofNat code, cs.drop n)
      else none
  else none

/-- The character behind a backslash. -/
def readEscape : Reader (List Char) Char
  | [] => none
  | c :: cs =>
    match c with
    | '0' => some ('\x00', cs)
    | 'a' => some ('\x07', cs)
    | 'b' => some ('\x08', cs)
    | 't' => some ('\t', cs)
    | '\t' => some ('\t', cs)
    | 'n' => some ('\n', cs)
    | 'v' => some ('\x0b', cs)
    | 'f' => some ('\x0c', cs)
    | 'r' => some ('\r', cs)
    | 'e' => some ('\x1b', cs)
    | ' ' => some (' ', cs)
    | '"' => some ('"', cs)
    | '/' => some ('/', cs)
    | '\\' => some ('\\', cs)
    | 'N' => some ('\u0085', cs)
    | '_' => some ('\u00a0', cs)
    | 'L' => some ('\u2028', cs)
    | 'P' => some ('\u2029', cs)
    | 'x' => readCodePoint 2 cs
    | 'u' => readCodePoint 4 cs
    | 'U' => readCodePoint 8 cs
    | _ => none

/-- The rest of a scalar in double quotes; a line end within it counts as a space. -/
def readDouble : Nat → Reader (List Char) (List Char)
  | 0, _ => none
  | _ + 1, [] => none
  | _ + 1, '"' :: cs => some ([], cs)
  | fuel + 1, '\\' :: '\n' :: cs => readDouble fuel (cs.dropWhile isSpace)
  | fuel + 1, '\\' :: cs => do
    let (c, cs) ← readEscape cs
    let (rest, cs) ← readDouble fuel cs
    return (c :: rest, cs)
  | fuel + 1, c :: cs => do
    let next := (c :: cs).dropWhile isSpace
    match next with
    | '\n' :: next =>
      let (rest, cs) ← readDouble fuel (next.dropWhile isSpace)
      return (' ' :: rest, cs)
    | _ =>
      let (rest, cs) ← readDouble fuel cs
      return (c :: rest, cs)

/-- The rest of a scalar in single quotes, where a quote is written twice. -/
def readSingle : Nat → Reader (List Char) (List Char)
  | 0, _ => none
  | _ + 1, [] => none
  | fuel + 1, '\'' :: '\'' :: cs => do
    let (rest, cs) ← readSingle fuel cs
    return ('\'' :: rest, cs)
  | _ + 1, '\'' :: cs => some ([], cs)
  | fuel + 1, c :: cs => do
    match (c :: cs).dropWhile isSpace with
    | '\n' :: next =>
      let (rest, cs) ← readSingle fuel (next.dropWhile isSpace)
      return (' ' :: rest, cs)
    | _ =>
      let (rest, cs) ← readSingle fuel cs
      return (c :: rest, cs)

/-- A scalar in quotes of either kind. -/
def readQuoted : Reader (List Char) String
  | '"' :: cs => (readDouble (cs.length + 1) cs).map fun (s, cs) => (String.ofList s, cs)
  | '\'' :: cs => (readSingle (cs.length + 1) cs).map fun (s, cs) => (String.ofList s, cs)
  | _ => none

/-! ## Bare scalars -/

/-- Whether a bare scalar may start here; `flow` tells that it stands within brackets. -/
def startsBare (flow : Bool) : List Char → Bool
  | [] => false
  | c :: cs =>
    if c = '-' ∨ c = '?' ∨ c = ':' then
      match cs with
      | [] => false
      | d :: _ => !isLayout d && !(flow && isFlowMark d)
    else !isIndicator c && !isLayout c

/-- Whether a colon in front of these characters ends a key. -/
def endsKey (flow : Bool) (cs : List Char) : Bool :=
  cs.head?.all fun d => isLayout d || (flow && isFlowMark d)

/-- The characters of a bare scalar on one line, up to a colon that ends a key, a comment or,
within brackets, a bracket or comma. -/
def takeBare (flow : Bool) : List Char → List Char × List Char
  | [] => ([], [])
  | c :: cs =>
    if c = '\n' then ([], c :: cs)
    else if flow ∧ isFlowMark c then ([], c :: cs)
    else if c = ':' ∧ endsKey flow cs then ([], c :: cs)
    else if isSpace c ∧ cs.head? = some '#' then ([], c :: cs)
    else
      let (taken, rest) := takeBare flow cs
      (c :: taken, rest)

/-- A bare scalar within brackets; a line end within it counts as a space. -/
def readFlowBare : Nat → List Char → List Char × List Char
  | 0, cs => ([], cs)
  | fuel + 1, cs =>
    let (taken, rest) := takeBare true cs
    match rest.dropWhile isSpace with
    | '\n' :: next =>
      let next := next.dropWhile isLayout
      if startsBare true next ∧ next.head? ≠ some '#' then
        let (more, rest) := readFlowBare fuel next
        (trimEnd taken ++ ' ' :: more, rest)
      else (trimEnd taken, rest)
    | _ => (trimEnd taken, rest)

/-! ## Flow style -/

/-- Spaces, line ends and comments, of which there are at most `fuel`. -/
def skipLayout : Nat → List Char → List Char
  | 0, cs => cs
  | fuel + 1, cs =>
    match cs.dropWhile isLayout with
    | '#' :: cs => skipLayout fuel (cs.dropWhile (· ≠ '\n'))
    | cs => cs

/-- The name of a tag. -/
def takeTag (cs : List Char) : String × List Char :=
  let (name, rest) := cs.span fun c => !isLayout c && !isFlowMark c
  (String.ofList name, rest)

/-- A key within brackets. -/
def readFlowKey (cs : List Char) : Option (String × List Char) :=
  match cs with
  | [] => none
  | c :: _ =>
    if c = '"' ∨ c = '\'' then readQuoted cs
    else if startsBare true cs then
      let (key, rest) := readFlowBare (cs.length + 1) cs
      some (String.ofList key, rest)
    else none

mutual

/-- A value within brackets. -/
def readFlow : Nat → Reader (List Char) Document
  | 0, _ => none
  | fuel + 1, cs =>
    match cs with
    | '[' :: cs => do
      let (items, cs) ← readFlowItems fuel cs
      return (.list items, cs)
    | '\x7b' :: cs => do
      let (entries, cs) ← readFlowEntries fuel cs
      return (.table entries, cs)
    | '!' :: cs => do
      let (tag, cs) := takeTag cs
      let cs := skipLayout (cs.length + 1) cs
      if cs.head?.all fun c => [',', ']', '\x7d'].contains c then return (.tagged tag (.bare ""), cs)
      let (d, cs) ← readFlow fuel cs
      return (.tagged tag d, cs)
    | [] => none
    | c :: _ =>
      if c = '"' ∨ c = '\'' then (readQuoted cs).map fun (s, cs) => (.text s, cs)
      else if startsBare true cs then
        let (s, rest) := readFlowBare (cs.length + 1) cs
        some (.bare (String.ofList s), rest)
      else none

/-- The rest of a list in brackets. -/
def readFlowItems : Nat → Reader (List Char) (List Document)
  | 0, _ => none
  | fuel + 1, cs =>
    match skipLayout (cs.length + 1) cs with
    | ']' :: cs => some ([], cs)
    | cs => do
      let (d, cs) ← readFlow fuel cs
      match skipLayout (cs.length + 1) cs with
      | ',' :: cs =>
        let (ds, cs) ← readFlowItems fuel cs
        return (d :: ds, cs)
      | ']' :: cs => return ([d], cs)
      | _ => none

/-- The rest of a map in brackets. -/
def readFlowEntries : Nat → Reader (List Char) (List (String × Document))
  | 0, _ => none
  | fuel + 1, cs =>
    match skipLayout (cs.length + 1) cs with
    | '\x7d' :: cs => some ([], cs)
    | cs => do
      let (key, cs) ← readFlowKey cs
      let (d, cs) ← match skipLayout (cs.length + 1) cs with
        | ':' :: cs =>
          let cs := skipLayout (cs.length + 1) cs
          if cs.head?.all fun c => c = ',' || c = '\x7d' then some (.bare "", cs)
          else readFlow fuel cs
        | cs => some (.bare "", cs)
      match skipLayout (cs.length + 1) cs with
      | ',' :: cs =>
        let (entries, cs) ← readFlowEntries fuel cs
        return ((key, d) :: entries, cs)
      | '\x7d' :: cs => return ([(key, d)], cs)
      | _ => none

end

/-! ## Block style -/

/-- Whether a line is an item of a list. -/
def isItem : List Char → Bool
  | '-' :: cs => cs.head?.all isSpace
  | _ => false

/-- The key at the start of a line, and what follows its colon. -/
def readKey (body : List Char) : Option (String × List Char) :=
  if body.head? = some '"' ∨ body.head? = some '\'' then do
    let (key, rest) ← readQuoted body
    match rest.dropWhile isSpace with
    | ':' :: rest => if endsKey false rest then some (key, rest) else none
    | _ => none
  else if startsBare false body then
    let (key, rest) := takeBare false body
    match rest with
    | ':' :: rest => some (String.ofList (trimEnd key), rest)
    | _ => none
  else none

/-- A bare scalar and its continuation on lines that are indented by more than `outer`. -/
def readBare (outer : Int) (cs : List Char) : List Line → Option (List Char × List Line)
  | [] =>
    let (taken, rest) := takeBare false cs
    if isRemark rest then some (trimEnd taken, []) else none
  | l :: ls =>
    let (taken, rest) := takeBare false cs
    if !isRemark rest then none
    else if (l.indent : Int) ≤ outer then some (trimEnd taken, l :: ls)
    else if !(rest.dropWhile isSpace).isEmpty then none
    else do
      let (more, ls) ← readBare outer l.body ls
      return (trimEnd taken ++ ' ' :: more, ls)

/-- A value that starts within a line; what follows it on its last line may only be a comment. -/
def readWithin (outer : Int) : Nat → List Char → List Line → Option (Document × List Line)
  | 0, _, _ => none
  | fuel + 1, cs, ls =>
    match cs with
    | '!' :: cs => do
      let (tag, cs) := takeTag cs
      let cs := cs.dropWhile isSpace
      if isRemark cs then return (.tagged tag (.bare ""), ls)
      let (d, ls) ← readWithin outer fuel cs ls
      return (.tagged tag d, ls)
    | [] => none
    | c :: _ =>
      if ['[', '\x7b', '"', '\''].contains c then do
        let text := cs ++ ls.flatMap fun l => '\n' :: l.body
        let (d, rest) ← readFlow (text.length + 1) text
        let (tail, others) := rest.span (· ≠ '\n')
        if isLineEnd tail then return (d, ls.drop (ls.length - others.count '\n')) else none
      else if startsBare false cs then do
        let (s, ls) ← readBare outer cs ls
        return (.bare (String.ofList s), ls)
      else none

mutual

/-- The value that starts with the first line; the lines around it are indented by `outer`. -/
def readBlock : Nat → Int → Reader (List Line) Document
  | 0, _, _ => none
  | _ + 1, _, [] => none
  | fuel + 1, outer, l :: ls =>
    if isItem l.body then do
      let (items, ls) ← readItems fuel l.indent (l :: ls)
      return (.list items, ls)
    else if (readKey l.body).isSome then do
      let (entries, ls) ← readEntries fuel l.indent (l :: ls)
      return (.table entries, ls)
    else readWithin outer (l.body.length + 1) l.body ls

/-- The items of a list that is indented by `n`. -/
def readItems : Nat → Nat → Reader (List Line) (List Document)
  | 0, _, _ => none
  | _ + 1, _, [] => some ([], [])
  | fuel + 1, n, l :: ls =>
    if l.indent = n ∧ isItem l.body then do
      let body := l.body.drop 1
      let (spaces, content) := body.span isSpace
      let (d, ls) ←
        if isRemark content then readNested fuel n ls
        else readBlock fuel n (⟨n + 1 + spaces.length, content⟩ :: ls)
      let (ds, ls) ← readItems fuel n ls
      return (d :: ds, ls)
    else if n < l.indent then none
    else some ([], l :: ls)

/-- The entries of a map that is indented by `n`. -/
def readEntries : Nat → Nat → Reader (List Line) (List (String × Document))
  | 0, _, _ => none
  | _ + 1, _, [] => some ([], [])
  | fuel + 1, n, l :: ls =>
    if l.indent = n then do
      let (key, rest) ← readKey l.body
      let rest := rest.dropWhile isSpace
      let (d, ls) ←
        if isRemark rest then
          match ls with
          | next :: _ =>
            if next.indent = n ∧ isItem next.body then
              (readItems fuel n ls).map fun (items, ls) => (.list items, ls)
            else readNested fuel n ls
          | [] => some (.bare "", [])
        else readWithin n (rest.length + 1) rest ls
      let (entries, ls) ← readEntries fuel n ls
      return ((key, d) :: entries, ls)
    else if n < l.indent then none
    else some ([], l :: ls)

/-- The value on the lines that are indented by more than `n`; without such lines, an empty one. -/
def readNested : Nat → Nat → Reader (List Line) Document
  | 0, _, _ => none
  | _ + 1, _, [] => some (.bare "", [])
  | fuel + 1, n, l :: ls =>
    if n < l.indent then readBlock fuel n (l :: ls) else some (.bare "", l :: ls)

end

/-- The document of a text. -/
def read (text : String) : Except DocumentError Document :=
  let cs := text.toList
  match (readLines (cutLines cs)).bind onlyDocument with
  | none => .error .malformed
  | some [] => .ok (.bare "")
  | some ls =>
    match readBlock (4 * cs.length + 4) (-1) ls with
    | some (d, []) => .ok d
    | _ => .error .malformed

end PlanSearch.Yaml
