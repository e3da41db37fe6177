import QueryCraft.Document
import QueryCraft.Text.Search

/-!
Printing the canonical text of a document: one selection a line, indented by level, then each
verbatim definition behind an empty line. A formatter only pads up to a greatest width, so there is
no text with a wider margin.
-/

namespace QueryCraft

/-- The indent of a text for which no other is asked. -/
def defaultIndent : Nat := 2

/-- The greatest width that a formatter pads to. -/
def maxWidth : Nat := 65535

/-- The spaces in front of a line of the given level. -/
def margin? (indent level : Nat) : Option (List Char) :=
  if level * indent ≤ maxWidth then some (List.replicate (level * indent) ' ') else none

/-- Each line of the source, on a line of its own. -/
def Verbatim.printLines? (indent level : Nat) (node : Verbatim) : Option (List Char) := do
  let lines ← (Text.lines node.source.toList).mapM fun line => do
    let margin ← margin? indent level
    some (margin ++ (line ++ ['\n']))
  some lines.flatten

/-- The lines of selections in braces. The closing one is on a line of its own. -/
def inBraces? (indent level : Nat) (lines : List Char) : Option (List Char) := do
  let margin ← margin? indent level
  some ('\x7b' :: '\n' :: (lines ++ (margin ++ ['\x7d'])))

mutual

/-- A selection with its margin and line end. A field with an empty selection set is written as one
without. -/
def Selection.print? (indent level : Nat) : Selection → Option (List Char)
  | .leaf f | .branch f [] => do
    let margin ← margin? indent level
    some (margin ++ (f.chars ++ ['\n']))
  | .branch f (s :: ss) => do
    let margin ← margin? indent level
    let lines ← Selection.listPrint? indent (level + 1) (s :: ss)
    let set ← inBraces? indent level lines
    some (margin ++ (f.chars ++ ' ' :: (set ++ ['\n'])))
  | .verbatim node => node.printLines? indent level

def Selection.listPrint? (indent level : Nat) : List Selection → Option (List Char)
  | [] => some []
  | s :: ss => do
    let text ← Selection.print? indent level s
    let texts ← Selection.listPrint? indent level ss
    some (text ++ texts)

end

def Operation.nameChars (op : Operation) : List Char :=
  match op.name with
  | none => []
  | some name => ' ' :: name.toList

def Operation.print? (indent : Nat) (op : Operation) : Option (List Char) := do
  let lines ← Selection.listPrint? indent 1 op.selections
  let set ← inBraces? indent 0 lines
  some ("query".toList ++ (op.nameChars ++ (VariableDefinition.groupChars op.definitions ++
    (Directive.listChars op.directives ++ ' ' :: (set ++ ['\n'])))))

def Verbatim.definitionChars (node : Verbatim) : List Char :=
  '\n' :: (node.source.toList ++ ['\n'])

def Document.print? (indent : Nat) (d : Document) : Option String := do
  let text ← d.operation.print? indent
  some (String.ofList (text ++ d.auxiliary.flatMap Verbatim.definitionChars))

end QueryCraft
