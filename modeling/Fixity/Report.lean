import Fixity.Bytes

/-!
# Reporting errors

Two ways to report: a `Transcript` writes every message on a line of its own as it comes, and a
`Collection` keeps the messages until they are asked for.  Both can be told to forget that there
were errors; a transcript still shows what it has written.
-/

namespace Fixity

structure Transcript where
  output : Bytes
  hadError : Bool
deriving DecidableEq, Repr

namespace Transcript

def empty : Transcript := ⟨[], false⟩

def report (t : Transcript) (message : Bytes) : Transcript := ⟨t.output ++ message ++ [10], true⟩

def reset (t : Transcript) : Transcript := { t with hadError := false }

end Transcript

structure Collection where
  messages : List Bytes
deriving DecidableEq, Repr

namespace Collection

def empty : Collection := ⟨[]⟩

def report (c : Collection) (message : Bytes) : Collection := ⟨c.messages ++ [message]⟩

def reset (_ : Collection) : Collection := empty

def hadError (c : Collection) : Bool := !c.messages.isEmpty

def joined? (c : Collection) : Option Bytes :=
  if c.hadError then some (Bytes.join "\n" c.messages) else none

end Collection

end Fixity
