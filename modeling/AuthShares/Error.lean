import AuthShares.Config.Environment

/-!
# Errors

A channel fails to send, fails to receive, or delivers a message that does not hold
the expected value. Above it come malformed aggregation messages, the verdicts of the
checks, and faults of the players, the preprocessing and the configuration.
-/

set_option autoImplicit false

namespace AuthShares

inductive SendFault where
  | noSuchParty (party : Nat)
  | closed
  deriving DecidableEq, Repr

inductive ReceiveFault where
  | noSuchParty (party : Nat)
  | closed
  | timeoutElapsed
  deriving DecidableEq, Repr

inductive ChannelError where
  | send (phase : String) (fault : SendFault)
  | receive (phase : String) (fault : ReceiveFault)
  | undecodable (phase : String)
  | wrongLength (phase : String)
  deriving DecidableEq, Repr

def SendFault.message : SendFault → String
  | .noSuchParty party => "NoSuchParty(" ++ toString party ++ ")"
  | .closed => "Closed(SendError \x7b .. \x7d)"

def ReceiveFault.message : ReceiveFault → String
  | .noSuchParty party => "NoSuchParty(" ++ toString party ++ ")"
  | .closed => "Closed"
  | .timeoutElapsed => "TimeoutElapsed"

namespace ChannelError

/-- The phase a report names; a message that cannot be decoded fails while receiving. -/
def phase : ChannelError → String
  | .send phase _ => phase
  | .receive phase _ => phase
  | .undecodable phase => "receiving " ++ phase
  | .wrongLength phase => phase

def reason : ChannelError → String
  | .send _ fault => "SendError(\"" ++ fault.message ++ "\")"
  | .receive _ fault => "RecvError(\"" ++ fault.message ++ "\")"
  | .undecodable _ => "SerdeError"
  | .wrongLength _ => "InvalidLength"

def message (e : ChannelError) : String := e.reason ++ " during " ++ e.phase

end ChannelError

inductive Error where
  | channel (e : ChannelError)
  | malformed (e : ReadError)
  | macCheckFailed
  | inconsistentOpening
  | commitmentMismatch
  | inconsistentBroadcast
  | invalidPlayer (me players : Nat)
  | missingPreprocessing
  | preprocessingExhausted
  | configuration (e : Config.EnvironmentError)
  deriving DecidableEq, Repr

def Error.message : Error → String
  | .channel e => "channel error: " ++ e.message
  | .malformed e => "malformed message: " ++ e.message
  | .macCheckFailed => "MAC check failed"
  | .inconsistentOpening => "opened check value is inconsistent with the partial openings"
  | .commitmentMismatch => "commitment could not be opened"
  | .inconsistentBroadcast => "broadcast messages differ between parties"
  | .invalidPlayer me players =>
    "player " ++ toString me ++ " does not exist among " ++ toString players ++ " players"
  | .missingPreprocessing => "no preprocessing source has been set"
  | .preprocessingExhausted => "preprocessing source is exhausted"
  | .configuration e => "invalid configuration: " ++ e.message

end AuthShares
