import QueryCraft.Document.Printer
import QueryCraft.Proofs.Document.Mapping

/-!
The layout of a text, whatever the width of its margins. A document is printed exactly if the margin
of its deepest line is not too wide, and then its text has this layout.
-/

namespace QueryCraft

/-- The spaces in front of a line of the given level. -/
def margin (indent level : Nat) : List Char :=
  List.replicate (level * indent) ' '

/-- Each line of the source, on a line of its own. -/
def Verbatim.lineChars (indent level : Nat) (node : Verbatim) : List Char :=
  (Text.lines node.source.toList).flatMap fun line => margin indent level ++ (line ++ ['\n'])

mutual

/-- A selection with its margin and line end. -/
def Selection.chars (indent level : Nat) : Selection → List Char
  | .leaf f | .branch f [] => margin indent level ++ (f.chars ++ ['\n'])
  | .branch f (s :: ss) =>
    margin indent level ++ (f.chars ++ ' ' :: '\x7b' :: '\n' ::
      (Selection.listChars indent (level + 1) (s :: ss) ++ (margin indent level ++ ['\x7d', '\n'])))
  | .verbatim node => node.lineChars indent level

def Selection.listChars (indent level : Nat) : List Selection → List Char
  | [] => []
  | s :: ss => Selection.chars indent level s ++ Selection.listChars indent level ss

end

def Operation.chars (indent : Nat) (op : Operation) : List Char :=
  "query".toList ++ (op.nameChars ++ (VariableDefinition.groupChars op.definitions ++
    (Directive.listChars op.directives ++ ' ' :: '\x7b' :: '\n' ::
      (Selection.listChars indent 1 op.selections ++ ['\x7d', '\n']))))

def Document.chars (indent : Nat) (d : Document) : List Char :=
  d.operation.chars indent ++ d.auxiliary.flatMap Verbatim.definitionChars

/-- The text of a document, also where a margin is too wide for it to be printed. -/
def Document.toText (indent : Nat) (d : Document) : String :=
  String.ofList (d.chars indent)

mutual

/-- How many levels the lines of a selection are on. A node whose source is empty has no line. -/
def Selection.levels : Selection → Nat
  | .leaf _ | .branch _ [] => 1
  | .branch _ (s :: ss) => 1 + Selection.listLevels (s :: ss)
  | .verbatim node => if (Text.lines node.source.toList).isEmpty then 0 else 1

def Selection.listLevels : List Selection → Nat
  | [] => 0
  | s :: ss => max (Selection.levels s) (Selection.listLevels ss)

end

/-- The level of the deepest line of a document. -/
def Document.levels (d : Document) : Nat :=
  Selection.listLevels d.operation.selections

/-- A text that can only be written if a margin is not too wide. -/
def within (indent level : Nat) (text : List Char) : Option (List Char) :=
  if level * indent ≤ maxWidth then some text else none

variable {indent level : Nat} {text : List Char}

theorem within_of_le (h : level * indent ≤ maxWidth) : within indent level text = some text :=
  if_pos h

theorem within_of_lt (h : maxWidth < level * indent) : within indent level text = none :=
  if_neg (Nat.not_le.mpr h)

theorem margin?_eq (indent level : Nat) :
    margin? indent level = within indent level (margin indent level) :=
  rfl

theorem inBraces?_of_le (h : level * indent ≤ maxWidth) (lines : List Char) :
    inBraces? indent level lines =
      some ('\x7b' :: '\n' :: (lines ++ (margin indent level ++ ['\x7d']))) := by
  rw [inBraces?, margin?_eq, within_of_le h]
  rfl

theorem within_bind (text : List Char) (f : List Char → List Char) :
    ((within indent level text).bind fun text => some (f text)) =
      within indent level (f text) := by
  unfold within
  split <;> rfl

/-- The margins of two levels are not too wide exactly if that of the greater one is not. -/
theorem within_append {first second : Nat} (text others : List Char) :
    ((within indent first text).bind fun text =>
      (within indent second others).bind fun others => some (text ++ others)) =
        within indent (max first second) (text ++ others) := by
  have hmax : max first second * indent ≤ maxWidth ↔
      first * indent ≤ maxWidth ∧ second * indent ≤ maxWidth := by
    rw [← Nat.mul_max_mul_right, Nat.max_le]
  unfold within
  by_cases hfirst : first * indent ≤ maxWidth <;> by_cases hsecond : second * indent ≤ maxWidth <;>
    simp [hmax, hfirst, hsecond]

/-- The lines of a node are written on the level below one whose margin is not too wide. -/
theorem Verbatim.printLines?_eq (h : level * indent ≤ maxWidth) (node : Verbatim) :
    node.printLines? indent (level + 1) =
      within indent (level + (Selection.verbatim node).levels)
        (node.lineChars indent (level + 1)) := by
  rw [printLines?, lineChars, Selection.levels]
  cases Text.lines node.source.toList with
  | nil => exact (within_of_le h).symm
  | cons line lines =>
    by_cases hbelow : (level + 1) * indent ≤ maxWidth
    · have hline : (fun line => do
          let margin ← margin? indent (level + 1)
          some (margin ++ (line ++ ['\n']))) =
            fun line => pure (margin indent (level + 1) ++ (line ++ ['\n'])) := by
        funext line
        rw [margin?_eq, within_of_le hbelow]
        rfl
      rw [hline, List.mapM_pure]
      exact (within_of_le hbelow).symm
    · have hwide : maxWidth < (level + 1) * indent := Nat.not_le.mp hbelow
      rw [List.mapM_cons, margin?_eq, within_of_lt hwide]
      exact (within_of_lt hwide).symm

namespace Selection

variable {s : Selection} {ss : List Selection}

theorem print?_plain (indent level : Nat) (f : Field) :
    (leaf f).print? indent level = within indent level ((leaf f).chars indent level) := by
  rw [print?, margin?_eq]
  exact within_bind _ (· ++ (f.chars ++ ['\n']))

theorem listPrint?_eq (h : level * indent ≤ maxWidth)
    (hss : ∀ s ∈ ss, s.print? indent (level + 1) =
      within indent (level + s.levels) (s.chars indent (level + 1))) :
    listPrint? indent (level + 1) ss =
      within indent (level + listLevels ss) (listChars indent (level + 1) ss) := by
  induction ss with
  | nil => exact (within_of_le h).symm
  | cons s ss ih =>
    rw [List.forall_mem_cons] at hss
    rw [listPrint?, hss.1, ih hss.2, listLevels, listChars, ← Nat.add_max_add_left]
    exact within_append _ _

/-- A selection is printed below a level whose margin is not too wide. -/
theorem print?_eq (h : level * indent ≤ maxWidth) (s : Selection) :
    s.print? indent (level + 1) =
      within indent (level + s.levels) (s.chars indent (level + 1)) := by
  induction s using inductOn generalizing level with
  | leaf f => exact print?_plain indent (level + 1) f
  | verbatim node => exact node.printLines?_eq h
  | branch f children ih =>
    cases children with
    | nil => exact print?_plain indent (level + 1) f
    | cons s ss =>
      have hdeepest : level + (branch f (s :: ss)).levels =
          level + 1 + listLevels (s :: ss) := by
        rw [levels, Nat.add_assoc]
      rw [print?, margin?_eq, hdeepest]
      by_cases hbelow : (level + 1) * indent ≤ maxWidth
      · have hlines := listPrint?_eq hbelow fun s hs => ih s hs hbelow
        simp only [within_of_le hbelow, hlines, inBraces?_of_le hbelow, Option.bind_eq_bind,
          Option.bind_some]
        refine (within_bind _ _).trans (congrArg (within indent _) ?_)
        simp [chars]
      · have hwide : maxWidth < (level + 1) * indent := Nat.not_le.mp hbelow
        have hwider : maxWidth < (level + 1 + listLevels (s :: ss)) * indent :=
          Nat.lt_of_lt_of_le hwide (Nat.mul_le_mul_right indent (Nat.le_add_right _ _))
        rw [within_of_lt hwide, within_of_lt hwider]
        rfl

end Selection

theorem Operation.print?_eq (indent : Nat) (op : Operation) :
    op.print? indent = within indent (Selection.listLevels op.selections) (op.chars indent) := by
  have hzero : 0 * indent ≤ maxWidth := by omega
  have hlines := Selection.listPrint?_eq hzero
    fun s (_ : s ∈ op.selections) => s.print?_eq hzero
  have hnone : margin indent 0 = [] := by simp [margin]
  rw [print?, hlines, Nat.zero_add, Nat.zero_add]
  simp only [inBraces?_of_le hzero, hnone, Option.bind_eq_bind, Option.bind_some]
  refine (within_bind _ _).trans (congrArg (within indent _) ?_)
  simp [chars]

namespace Document

/-- A document is printed exactly if the margin of its deepest line is not too wide. -/
theorem print?_eq (indent : Nat) (d : Document) :
    d.print? indent =
      if d.levels * indent ≤ maxWidth then some (d.toText indent) else none := by
  rw [print?, d.operation.print?_eq]
  unfold within levels
  split <;> rfl

variable {d : Document} {text : String}

theorem print?_of_le (h : d.levels * indent ≤ maxWidth) :
    d.print? indent = some (d.toText indent) := by
  rw [print?_eq, if_pos h]

theorem print?_of_lt (h : maxWidth < d.levels * indent) : d.print? indent = none := by
  rw [print?_eq, if_neg (Nat.not_le.mpr h)]

theorem print?_eq_some_iff :
    d.print? indent = some text ↔ d.levels * indent ≤ maxWidth ∧ d.toText indent = text := by
  rw [print?_eq]
  simp

end Document

end QueryCraft
