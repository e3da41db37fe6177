/-!
Names: an underscore or ASCII letter, followed by underscores, ASCII letters and digits.
-/

namespace QueryCraft.Text

def isNameStart (c : Char) : Bool :=
  c == '_' || c.isAlpha

def isNamePart (c : Char) : Bool :=
  c == '_' || c.isAlphanum

/-- Holds of the texts that are one whole name. -/
def isName (s : String) : Bool :=
  match s.toList with
  | [] => false
  | c :: cs => isNameStart c && cs.all isNamePart

/-- A name that can stand for an enum value: `true`, `false` and `null` read as other literals. -/
def isEnumName (s : String) : Bool :=
  isName s && s != "true" && s != "false" && s != "null"

theorem isNamePart_of_isNameStart {c : Char} (h : isNameStart c = true) : isNamePart c = true := by
  simp only [isNameStart, isNamePart, Char.isAlphanum, Bool.or_eq_true] at h ⊢
  rcases h with h | h
  · exact .inl h
  · exact .inr (.inl h)

end QueryCraft.Text
