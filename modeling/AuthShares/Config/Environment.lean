import AuthShares.Config
import AuthShares.Text.Number

/-!
# Parameters from the environment

Every field has a variable. Absent variables, and those that are not text, leave the
default; the first one that is no number is reported.
-/

set_option autoImplicit false

namespace AuthShares.Config

def Field.variable : Field → String
  | .fanIn => "MACOPEN_OPENING_SUM"
  | .fanOut => "MACOPEN_MAX_BROADCAST"
  | .root => "MACOPEN_BASE_PLAYER"
  | .checkAfter => "MACOPEN_POPEN_MAX"

structure EnvironmentError where
  field : Field
  fault : NumberFault
  deriving DecidableEq, Repr

def EnvironmentError.message (e : EnvironmentError) : String :=
  e.field.variable ++ " must be a non-negative integer: " ++ e.fault.message

def decodeText (bs : Bytes) : Option String := String.fromUTF8? ⟨bs.toArray⟩

def readField (lookup : String → Option Bytes) (c : Config) (field : Field) :
    Except EnvironmentError Config :=
  match (lookup field.variable).bind decodeText with
  | none => .ok c
  | some text =>
    match readNumber (trimBlank text.toList) with
    | .ok n => .ok (c.set field n)
    | .error fault => .error ⟨field, fault⟩

def ofEnvironment (lookup : String → Option Bytes) : Except EnvironmentError Config :=
  fields.foldlM (readField lookup) default

end AuthShares.Config
