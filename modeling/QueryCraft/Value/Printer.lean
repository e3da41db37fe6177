import QueryCraft.Value
import QueryCraft.Number.FloatText
import QueryCraft.Text.Quoted

/-!
The text of a value as documents carry it.
-/

namespace QueryCraft.Value

mutual

def chars : Value → List Char
  | .null => ['n', 'u', 'l', 'l']
  | .boolean true => ['t', 'r', 'u', 'e']
  | .boolean false => ['f', 'a', 'l', 's', 'e']
  | .int n => Number.intDigits n.toInt
  | .float x => Number.FloatStyle.value.write x
  | .string text => Text.Quoted.write text.toList
  | .enum name => name.toList
  | .var name => '$' :: name.toList
  | .list items => '[' :: (itemChars items ++ [']'])
  | .object entries => '\x7b' :: (entryChars entries ++ ['\x7d'])

/-- Items separated by commas. -/
def itemChars : List Value → List Char
  | [] => []
  | [v] => chars v
  | v :: w :: vs => chars v ++ ',' :: ' ' :: itemChars (w :: vs)

/-- Entries separated by commas. -/
def entryChars : List (String × Value) → List Char
  | [] => []
  | [(k, v)] => k.toList ++ ':' :: ' ' :: chars v
  | (k, v) :: e :: es => k.toList ++ ':' :: ' ' :: (chars v ++ ',' :: ' ' :: entryChars (e :: es))

end

def text (v : Value) : String :=
  String.ofList v.chars

end QueryCraft.Value
