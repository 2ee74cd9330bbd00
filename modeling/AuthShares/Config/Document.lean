import AuthShares.Config
import AuthShares.Text.Number

/-!
# Parameters from a document

A record names the fields it sets and may hold other entries; a sequence gives the
fields in order and may end early. An entry for a field has to be a natural number
that fits in a word.
-/

set_option autoImplicit false

namespace AuthShares.Config

inductive Entry where
  | number (n : Nat)
  | other
  deriving DecidableEq, Repr

inductive Document where
  | record (entries : List (String × Entry))
  | sequence (entries : List Entry)
  | other

def setEntry (c : Config) (field : Field) : Entry → Option Config
  | .number n => if n < wordRange then some (c.set field n) else none
  | .other => none

def setNamed (c : Config) (entry : String × Entry) : Option Config :=
  match Field.ofName? entry.1 with
  | some field => setEntry c field entry.2
  | none => some c

def setInOrder (c : Config) : List Field → List Entry → Option Config
  | _, [] => some c
  | [], _ :: _ => none
  | field :: rest, entry :: entries => do
    let c ← setEntry c field entry
    setInOrder c rest entries

def ofDocument : Document → Option Config
  | .record entries => entries.foldlM setNamed default
  | .sequence entries => setInOrder default fields entries
  | .other => none

end AuthShares.Config
