import X64.Text.Split

/-!
# Source lines

A line is reduced to the labels it defines and at most one statement. A comment runs from `#` or `;`
to the end of the line, unless the character stands inside a string.
-/

namespace X64.Source

/-! ## Comments -/

/-- Where a scan stands with respect to string literals. -/
inductive Quoting where
  /-- Outside of any string. -/
  | outside
  /-- Inside a string. -/
  | inside
  /-- Inside a string, right after a backslash. -/
  | escaped
  deriving DecidableEq, Repr

/-- The position after one more character. -/
def Quoting.next : Quoting → Char → Quoting
  | .outside, c => if c = '"' then .inside else .outside
  | .inside, c => if c = '"' then .outside else if c = '\\' then .escaped else .inside
  | .escaped, _ => .inside

/-- Whether a character starts a comment where no string is open. -/
def isCommentMark (c : Char) : Bool := c == '#' || c == ';'

/-- Removes the comment from text that starts at the given position. -/
def stripCommentFrom : Quoting → List Char → List Char
  | _, [] => []
  | q, c :: cs =>
    if q = .outside ∧ isCommentMark c then [] else c :: stripCommentFrom (q.next c) cs

/-- Removes the comment at the end of a line. -/
def stripComment (cs : List Char) : List Char := stripCommentFrom .outside cs

/-! ## Labels -/

/-- Whether a label name may begin with the character. -/
def isLabelStart (c : Char) : Bool := c.isAlpha || c == '_' || c == '.' || c == '$'

/-- Whether a label name may go on with the character. -/
def isLabelRest (c : Char) : Bool := isLabelStart c || c.isDigit

/-- Whether the text is a label name. Letters and digits are those of ASCII. -/
def isLabelName : List Char → Bool
  | [] => false
  | c :: cs => isLabelStart c && cs.all isLabelRest

/-- The name of the label that a word defines: what stands in front of its last colon. -/
def definedLabel? (w : Text.Word) : Option (List Char) :=
  if w.text.getLast? = some ':' ∧ isLabelName w.text.dropLast then some w.text.dropLast else none

/-! ## Lines -/

/-- What a line asks for, in the words of the source. -/
inductive Statement where
  | directive (name : List Char) (args : List (List Char))
  | instruction (mnemonic : List Char) (operands : List (List Char))
  deriving DecidableEq, Repr

/-- A source line: its number, counted from one, its labels and its statement. -/
structure Line where
  number : Nat
  labels : List (List Char)
  statement : Option Statement
  deriving DecidableEq, Repr

/-- The statement that is made of the given words. One that starts with a dot is a directive. -/
def Statement.ofWords? : List Text.Word → Option Statement
  | [] => none
  | w :: ws =>
    match w.text with
    | '.' :: name => some (.directive name (Text.items (Text.spell ws)))
    | name => some (.instruction name (Text.items (Text.spell ws)))

namespace Line

/-- Reads a line. The labels are the words in front that define one. -/
def ofText (number : Nat) (cs : List Char) : Line :=
  let ws := Text.words (Text.trim (stripComment cs))
  { number
    labels := (ws.takeWhile fun w => (definedLabel? w).isSome).filterMap definedLabel?
    statement := Statement.ofWords? (ws.dropWhile fun w => (definedLabel? w).isSome) }

/-- The lines of a source, numbered from one. -/
def ofSource (cs : List Char) : List Line :=
  (Text.lines cs).mapIdx fun i line => ofText (i + 1) line

/-- Whether the line holds an instruction. -/
def isInstruction (line : Line) : Bool :=
  match line.statement with
  | some (.instruction ..) => true
  | _ => false

end Line

end X64.Source
