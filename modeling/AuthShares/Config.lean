import AuthShares.Bytes.Wire

/-!
# Parameters of opening and checking

The fan-in and the fan-out bound how many players one player hears from or tells in
a round of the tree, the root is where the tree ends, and a check is due once enough
opened values wait for it. A fan of less than two stands for all players.
-/

set_option autoImplicit false

namespace AuthShares

structure Config where
  fanIn : Nat
  fanOut : Nat
  root : Nat
  checkAfter : Nat
  deriving DecidableEq, Repr

namespace Config

def default : Config := ⟨0, 0, 0, 1000000⟩

instance : Inhabited Config := ⟨default⟩

inductive Field where
  | fanIn
  | fanOut
  | root
  | checkAfter
  deriving DecidableEq, Repr

def fields : List Field := [.fanIn, .fanOut, .root, .checkAfter]

def Field.name : Field → String
  | .fanIn => "opening_sum"
  | .fanOut => "max_broadcast"
  | .root => "base_player"
  | .checkAfter => "popen_max"

def Field.ofName? (name : String) : Option Field := fields.find? (·.name = name)

def get (c : Config) : Field → Nat
  | .fanIn => c.fanIn
  | .fanOut => c.fanOut
  | .root => c.root
  | .checkAfter => c.checkAfter

def set (c : Config) (field : Field) (n : Nat) : Config :=
  match field with
  | .fanIn => { c with fanIn := n }
  | .fanOut => { c with fanOut := n }
  | .root => { c with root := n }
  | .checkAfter => { c with checkAfter := n }

def toList (c : Config) : List Nat := fields.map c.get

def toBytes (c : Config) : Bytes := c.toList.flatMap (toLittleEndian 8)

end Config

def effectiveFan (fan players : Nat) : Nat := if fan < 2 then players else fan

end AuthShares
