import X64.Text.Numeral
import X64.Text.Split

/-!
# Expectations

A sample program can say in its header what a run of it must give:

    ;; EXPECT_STATUS: 13
    ;; EXPECT_STDOUT: hello\n

The header is the longest run of lines at the front that are blank or start with a semicolon.
-/

namespace X64

/-- What a run must give, as far as the header says so. -/
structure Expectation where
  status : Option UInt64 := none
  stdout : Option String := none
  deriving DecidableEq, Repr, Inhabited

/-- What is wrong with a header. -/
inductive ExpectationError where
  | invalidStatus (line : Nat) (value : String)
  | duplicateStatus (line : Nat)
  deriving DecidableEq, Repr

/-- The wording of the error. -/
def ExpectationError.message : ExpectationError → String
  | .invalidStatus line value =>
    "line " ++ Text.decimal line ++ ": invalid expected status '" ++ value ++ "'"
  | .duplicateStatus line => "line " ++ Text.decimal line ++ ": status declared twice"

namespace Expectation

/-- Whether nothing is expected. -/
def isEmpty (e : Expectation) : Bool := e.status.isNone && e.stdout.isNone

/-- What a header line declares. -/
inductive Marker where
  | status (value : List Char)
  | stdout (value : List Char)
  deriving DecidableEq, Repr

/-- The rest of a text after a given beginning. -/
def after? (start cs : List Char) : Option (List Char) :=
  if start.isPrefixOf cs then some (cs.drop start.length) else none

/-- The marker in the text of a comment. -/
def Marker.ofComment? (comment : List Char) : Option Marker :=
  match after? "EXPECT_STATUS:".toList comment with
  | some value => some (.status value)
  | none => (after? "EXPECT_STDOUT:".toList comment).map .stdout

/-- The marker on a header line: what follows the semicolons and blanks. -/
def Marker.ofLine? (line : List Char) : Option Marker :=
  if line.head? = some ';' then Marker.ofComment? (Text.trim (line.dropWhile (· == ';'))) else none

/-- Replaces each backslash followed by an `n` by a newline. -/
def unescape : List Char → List Char
  | '\\' :: 'n' :: cs => '\n' :: unescape cs
  | c :: cs => c :: unescape cs
  | [] => []

/-- The text that a marker for the standard output stands for. One space after the colon is not
part of it. -/
def outputText (value : List Char) : String :=
  String.ofList (unescape (if value.head? = some ' ' then value.tail else value))

/-- Takes a marker on a line of the given number into account. -/
def declare (e : Expectation) (number : Nat) : Marker → Except ExpectationError Expectation
  | .status value =>
    if e.status.isSome then .error (.duplicateStatus number)
    else
      match Text.word? 10 (Text.trim value) with
      | some status => .ok { e with status := some status }
      | none => .error (.invalidStatus number (String.ofList (Text.trim value)))
  | .stdout value => .ok { e with stdout := some (e.stdout.getD "" ++ outputText value) }

/-- Whether a trimmed line belongs to the header. -/
def isHeaderLine (line : List Char) : Bool := line.isEmpty || line.head? == some ';'

/-- The header of a source: its lines, trimmed, each with its number. -/
def header (cs : List Char) : List (Nat × List Char) :=
  ((Text.lines cs).mapIdx fun i line => (i + 1, Text.trim line)).takeWhile
    fun (_, line) => isHeaderLine line

/-- Reads the expectation of a source. -/
def ofSource (source : String) : Except ExpectationError Expectation :=
  (header source.toList).foldlM
    (fun e (number, line) =>
      match Marker.ofLine? line with
      | some marker => e.declare number marker
      | none => .ok e)
    {}

end Expectation

end X64
