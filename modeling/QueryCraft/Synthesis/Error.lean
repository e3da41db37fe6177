import QueryCraft.Schema

/-!
Why no query can be synthesized.
-/

namespace QueryCraft

inductive SynthesisError where
  | schema (cause : Schema.LookupError)
  | unknownRootField (field : String) (available : List String)
  deriving DecidableEq, Repr

def SynthesisError.message : SynthesisError → String
  | .schema cause => cause.message
  | .unknownRootField field available =>
    "`" ++ field ++ "` is not a field of the root Query type (available: " ++
      ", ".intercalate available ++ ")"

end QueryCraft
