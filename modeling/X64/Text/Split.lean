import X64.Text.Blank

/-!
# Cutting text into pieces

Sources are cut into lines, lines into words and operand texts into items. A word keeps the blanks
that follow it, so a line without blanks in front can be spelled back from its words.
-/

namespace X64.Text

/-- The lines of a text. A newline ends its line, so a last line without any character is none. -/
def lines (cs : List Char) : List (List Char) :=
  cs.foldr
    (fun c later =>
      if c = '\n' then [] :: later
      else match later with
        | [] => [[c]]
        | line :: rest => (c :: line) :: rest)
    []

/-- The items of a comma-separated list, trimmed. Items without any character are left out. -/
def items (cs : List Char) : List (List Char) :=
  ((cs.splitOn ',').map trim).filter fun item => !item.isEmpty

/-- A stretch of text without blanks, and the blanks after it. -/
structure Word where
  text : List Char
  gap : List Char
  deriving DecidableEq, Repr

/-- The words of a text. Blanks at the very front are the gap of a word without text. -/
def words (cs : List Char) : List Word :=
  cs.foldr
    (fun c later =>
      if isBlank c then
        match later with
        | ⟨[], gap⟩ :: rest => ⟨[], c :: gap⟩ :: rest
        | rest => ⟨[], [c]⟩ :: rest
      else
        match later with
        | ⟨text, gap⟩ :: rest => ⟨c :: text, gap⟩ :: rest
        | [] => [⟨[c], []⟩])
    []

/-- The text that a list of words was cut from. -/
def spell (ws : List Word) : List Char := ws.flatMap fun w => w.text ++ w.gap

/-- Cuts a text at the first place where `mark` stands, and drops the mark. -/
def cutAt (mark : List Char) : List Char → Option (List Char × List Char)
  | [] => none
  | c :: cs =>
    if mark.isPrefixOf (c :: cs) then some ([], (c :: cs).drop mark.length)
    else (cutAt mark cs).map fun (before, after) => (c :: before, after)

@[simp] theorem lines_nil : lines [] = [] := rfl

@[simp] theorem lines_newline (cs : List Char) : lines ('\n' :: cs) = [] :: lines cs := by
  simp [lines]

/-- Nothing is lost when a text is cut into words. -/
theorem spell_words (cs : List Char) : spell (words cs) = cs := by
  induction cs with
  | nil => rfl
  | cons c cs ih =>
    have hstep : spell (words (c :: cs)) = c :: spell (words cs) := by
      simp only [words, List.foldr_cons]
      generalize List.foldr _ [] cs = later
      by_cases hc : isBlank c = true
      · rw [if_pos hc]
        split <;> simp [spell]
      · rw [if_neg hc]
        split <;> simp [spell]
    rw [hstep, ih]

end X64.Text
