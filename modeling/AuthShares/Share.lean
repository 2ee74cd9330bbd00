import AuthShares.Bytes.Wire

/-!
# Authenticated shares

A player holds one share of a secret and one of the secret times the key. Shares are
added and scaled locally. A public constant enters the value of player zero only, but
the authentication of every player, each with its own share of the key.
-/

set_option autoImplicit false

namespace AuthShares

structure Share (T : Type) where
  value : T
  mac : T
  deriving DecidableEq, Repr

namespace Share

variable {T : Type} [MacElement T]

instance : Zero (Share T) := ⟨⟨0, 0⟩⟩
instance : Add (Share T) := ⟨fun a b => ⟨a.value + b.value, a.mac + b.mac⟩⟩
instance : Sub (Share T) := ⟨fun a b => ⟨a.value - b.value, a.mac - b.mac⟩⟩

def scale (a : Share T) (c : T) : Share T := ⟨a.value * c, a.mac * c⟩

def addPublic (a : Share T) (c keyShare : T) (me : Nat) : Share T :=
  ⟨if me = 0 then a.value + c else a.value, a.mac + keyShare * c⟩

instance [Wire T] : Wire (Share T) where
  encode a := Wire.encode (a.value, a.mac)
  decode bs := (Wire.decode bs).map fun ((value, mac), rest) => (⟨value, mac⟩, rest)

inductive Expr (T : Type) where
  | given (a : Share T)
  | dealt (index : Nat)
  | zero
  | add (a b : Expr T)
  | sub (a b : Expr T)
  | scale (a : Expr T) (c : T)
  | addPublic (a : Expr T) (c : T)

def Expr.eval (keyShare : T) (me : Nat) (dealt : List (Share T)) : Expr T → Share T
  | .given a => a
  | .dealt index => dealt.getD index 0
  | .zero => 0
  | .add a b => a.eval keyShare me dealt + b.eval keyShare me dealt
  | .sub a b => a.eval keyShare me dealt - b.eval keyShare me dealt
  | .scale a c => (a.eval keyShare me dealt).scale c
  | .addPublic a c => (a.eval keyShare me dealt).addPublic c keyShare me

end Share

end AuthShares
