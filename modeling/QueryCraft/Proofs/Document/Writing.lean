import QueryCraft.Proofs.Document.Layout

/-!
The text of a document with its arguments told apart. It consists of pieces, some of which are the
arguments in their order; the pieces between them stay the same whatever the arguments are.
-/

namespace QueryCraft

/-- A piece of a text: an argument, or characters that belong to none. -/
inductive Piece where
  | plain (cs : List Char)
  | argument (a : Argument)

namespace Piece

/-- The text of a piece after each argument has been replaced by `f`. -/
def charsWith (f : Argument → Argument) : Piece → List Char
  | .plain cs => cs
  | .argument a => (f a).chars

def argument? : Piece → Option Argument
  | .plain _ => none
  | .argument a => some a

end Piece

/-- The pieces make up a text, also when the arguments among them are replaced; and these are the
arguments. -/
structure Writes (chars : (Argument → Argument) → List Char) (as : List Argument)
    (pieces : List Piece) : Prop where
  chars_eq : ∀ f, pieces.flatMap (Piece.charsWith f) = chars f
  arguments_eq : pieces.filterMap Piece.argument? = as

namespace Writes

variable {chars more : (Argument → Argument) → List Char} {as bs : List Argument}
  {pieces others : List Piece}

theorem nil : Writes (fun _ => []) [] [] :=
  ⟨fun _ => rfl, rfl⟩

theorem append (h : Writes chars as pieces) (hmore : Writes more bs others) :
    Writes (fun f => chars f ++ more f) (as ++ bs) (pieces ++ others) where
  chars_eq f := by rw [List.flatMap_append, h.chars_eq, hmore.chars_eq]
  arguments_eq := by rw [List.filterMap_append, h.arguments_eq, hmore.arguments_eq]

theorem after (h : Writes chars as pieces) (cs : List Char) :
    Writes (fun f => cs ++ chars f) as (.plain cs :: pieces) where
  chars_eq f := by rw [List.flatMap_cons, h.chars_eq, Piece.charsWith]
  arguments_eq := h.arguments_eq

theorem argument (a : Argument) (h : Writes chars as pieces) :
    Writes (fun f => (f a).chars ++ chars f) (a :: as) (.argument a :: pieces) where
  chars_eq f := by rw [List.flatMap_cons, h.chars_eq, Piece.charsWith]
  arguments_eq := congrArg (a :: ·) h.arguments_eq

theorem single (a : Argument) : Writes (fun f => (f a).chars) [a] [.argument a] where
  chars_eq f := List.append_nil (f a).chars
  arguments_eq := rfl

theorem last (cs : List Char) : Writes (fun _ => cs) [] [.plain cs] where
  chars_eq _ := List.append_nil cs
  arguments_eq := rfl

theorem before (h : Writes chars as pieces) (cs : List Char) :
    Writes (fun f => chars f ++ cs) as (pieces ++ [.plain cs]) := by
  have hlast := h.append (.last cs)
  rw [List.append_nil] at hlast
  exact hlast

end Writes

namespace Argument

/-- Arguments separated by commas. -/
def listPieces : List Argument → List Piece
  | [] => []
  | [a] => [.argument a]
  | a :: b :: as => .argument a :: .plain [',', ' '] :: listPieces (b :: as)

/-- Arguments in parentheses, or nothing. -/
def groupPieces : List Argument → List Piece
  | [] => []
  | as => .plain ['('] :: (listPieces as ++ [.plain [')']])

theorem writes_list (as : List Argument) :
    Writes (fun f => listChars (as.map f)) as (listPieces as) := by
  induction as with
  | nil => exact .nil
  | cons a as ih =>
    cases as with
    | nil => exact .single a
    | cons b bs => exact .argument a (ih.after [',', ' '])

theorem writes_group (as : List Argument) :
    Writes (fun f => groupChars (as.map f)) as (groupPieces as) := by
  cases as with
  | nil => exact .nil
  | cons a as => exact ((writes_list (a :: as)).before [')']).after ['(']

end Argument

namespace Directive

def pieces (d : Directive) : List Piece :=
  .plain ('@' :: d.name.toList) :: Argument.groupPieces d.arguments

/-- Directives with a space in front of each. -/
def listPieces : List Directive → List Piece
  | [] => []
  | d :: ds => .plain [' '] :: (d.pieces ++ listPieces ds)

theorem writes (d : Directive) : Writes (fun f => (d.map f).chars) d.arguments d.pieces :=
  (Argument.writes_group d.arguments).after ('@' :: d.name.toList)

theorem writes_list (ds : List Directive) :
    Writes (fun f => listChars (ds.map (map f))) (allArguments ds) (listPieces ds) := by
  induction ds with
  | nil => exact .nil
  | cons d ds ih => exact (d.writes.append ih).after [' ']

end Directive

namespace Field

def pieces (f : Field) : List Piece :=
  .plain f.aliasChars :: .plain f.name.toList ::
    (Argument.groupPieces f.arguments ++ Directive.listPieces f.directives)

theorem writes (field : Field) :
    Writes (fun f => (field.map f).chars) field.allArguments field.pieces := by
  have hlists := (Argument.writes_group field.arguments).append
    (Directive.writes_list field.directives)
  exact (hlists.after field.name.toList).after field.aliasChars

end Field

namespace Selection

mutual

/-- A selection with its margin and line end. -/
def pieces (indent level : Nat) : Selection → List Piece
  | .leaf f | .branch f [] => .plain (margin indent level) :: (f.pieces ++ [.plain ['\n']])
  | .branch f (s :: ss) =>
    .plain (margin indent level) :: (f.pieces ++ .plain [' ', '\x7b', '\n'] ::
      (listPieces indent (level + 1) (s :: ss) ++
        [.plain (margin indent level ++ ['\x7d', '\n'])]))
  | .verbatim node => [.plain (node.lineChars indent level)]

def listPieces (indent level : Nat) : List Selection → List Piece
  | [] => []
  | s :: ss => pieces indent level s ++ listPieces indent level ss

end

variable {indent level : Nat}

theorem writes_list {ss : List Selection}
    (h : ∀ s ∈ ss, Writes (fun f => (s.map f).chars indent level) s.allArguments
      (s.pieces indent level)) :
    Writes (fun f => listChars indent level (mapAll f ss)) (listArguments ss)
      (listPieces indent level ss) := by
  induction ss with
  | nil => exact .nil
  | cons s ss ih =>
    rw [List.forall_mem_cons] at h
    exact h.1.append (ih h.2)

/-- A field on a line of its own. -/
theorem writes_line (indent level : Nat) (field : Field) :
    Writes (fun f => margin indent level ++ ((field.map f).chars ++ ['\n'])) field.allArguments
      (.plain (margin indent level) :: (field.pieces ++ [.plain ['\n']])) :=
  (field.writes.before ['\n']).after (margin indent level)

theorem writes (indent level : Nat) (s : Selection) :
    Writes (fun f => (s.map f).chars indent level) s.allArguments (s.pieces indent level) := by
  induction s using Selection.inductOn generalizing level with
  | leaf field => exact writes_line indent level field
  | verbatim node => exact .last (node.lineChars indent level)
  | branch field children ih =>
    cases children with
    | nil =>
      rw [allArguments, listArguments, List.append_nil]
      exact writes_line indent level field
    | cons s ss =>
      have hlist := writes_list fun u hu => ih u hu (level + 1)
      have hset := (hlist.before (margin indent level ++ ['\x7d', '\n'])).after
        [' ', '\x7b', '\n']
      exact (field.writes.append hset).after (margin indent level)

end Selection

namespace Operation

def pieces (indent : Nat) (op : Operation) : List Piece :=
  .plain "query".toList :: .plain op.nameChars ::
    .plain (VariableDefinition.groupChars op.definitions) ::
      (Directive.listPieces op.directives ++ .plain [' ', '\x7b', '\n'] ::
        (Selection.listPieces indent 1 op.selections ++ [.plain ['\x7d', '\n']]))

theorem writes (indent : Nat) (op : Operation) :
    Writes (fun f => (op.map f id).chars indent) op.allArguments (op.pieces indent) := by
  have hlist := Selection.writes_list fun s (_ : s ∈ op.selections) => s.writes indent 1
  have hset := (hlist.before ['\x7d', '\n']).after [' ', '\x7b', '\n']
  have hbody := ((Directive.writes_list op.directives).append hset).after
    (VariableDefinition.groupChars op.definitions)
  have hdefinitions (f : Argument → Argument) : (op.map f id).definitions = op.definitions :=
    List.map_id op.definitions
  simp only [chars, hdefinitions]
  exact (hbody.after op.nameChars).after "query".toList

end Operation

namespace Document

/-- The pieces of the text of a document. -/
def pieces (indent : Nat) (d : Document) : List Piece :=
  d.operation.pieces indent ++ d.auxiliary.map fun node => .plain node.definitionChars

theorem writes (indent : Nat) (d : Document) :
    Writes (fun f => (d.map f id).chars indent) d.operation.allArguments (d.pieces indent) := by
  have hauxiliary : Writes (fun _ => d.auxiliary.flatMap Verbatim.definitionChars) []
      (d.auxiliary.map fun node => .plain node.definitionChars) := by
    induction d.auxiliary with
    | nil => exact .nil
    | cons node nodes ih => exact ih.after node.definitionChars
  have hdocument := (d.operation.writes indent).append hauxiliary
  rw [List.append_nil] at hdocument
  exact hdocument

/-- The arguments in the order in which they are printed. -/
def printed (indent : Nat) (d : Document) : List Argument :=
  (d.pieces indent).filterMap Piece.argument?

end Document

end QueryCraft
