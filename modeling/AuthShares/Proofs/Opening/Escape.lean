import AuthShares.Proofs.Element.Mersenne61
import AuthShares.Proofs.Opening.Balance
import AuthShares.Proofs.Opening.Batches

/-!
# A value that escapes

A batch that is exchanged a second time is summed again: every player enters the secret,
so the sum is a multiple of it. It waits without an authentication, behind the secret, and
the check that pairs the two lists leaves it out. All operations succeed.
-/

set_option autoImplicit false

namespace AuthShares

open scoped BigOperators

variable {n : Nat} {capacity : Option Nat} {T : Type} [MacElement T] [Modular T]
  {key : Fin n → T}

def Sharing.repeated (hkey : ∀ i, Element.isCanonical (key i)) {v : T}
    (hv : Element.isCanonical v) : Sharing T key where
  secret := Element.total (List.ofFn fun _ : Fin n => v)
  share i := ⟨v, key i * Element.total (List.ofFn fun _ : Fin n => v)⟩
  value_canonical _ := hv
  mac_canonical i := Modular.mul_canonical (hkey i) (Modular.total_ofFn_canonical fun _ => hv)
  total_value := rfl
  total_mac := by
    have hsum : Element.isCanonical (Element.total (List.ofFn fun _ : Fin n => v)) :=
      Modular.total_ofFn_canonical fun _ => hv
    apply Modular.total_ofFn_eq_mul hkey (fun i => Modular.mul_canonical (hkey i) hsum) hsum
    rw [Finset.sum_mul]
    exact Finset.sum_congr rfl fun i _ => Modular.residue_mul dvd_rfl (hkey i) hsum

namespace Account

variable [Wire T] {s : Fin n → Account T} {a : Aggregator} {mode : ExchangeMode}

omit [Modular T] in
theorem run_checkIfDue (player : Player) {s : Account T}
    (h : ¬ s.opener.checkAfter ≤ s.opener.waiting) :
    (checkIfDue player).run.run s = .done (.ok (), s) := by
  rw [checkIfDue, Action.run_bind_done (Action.run_get s), if_neg h]
  rfl

theorem exchange_accord (hcap : capacity ≠ some 0) (hpos : 0 < n) (hn : 2 * n < wordRange)
    (hmode : ∀ i, (s i).opener.mode = mode)
    (ha : ∀ i, ∃ packed, (s i).opener.aggregator = { a with packed })
    (b : List (Sharing T key))
    (hopened : ∀ i, (s i).opener.opened = b.map fun x => (x.share i).value)
    (hlengths : ∀ i, (s i).opener.lengths = b.map fun _ => none)
    (hdue : ∀ i, ¬ (s i).opener.checkAfter ≤
      (Opener.record { (s i).opener with opened := b.map (·.secret) }).waiting)
    (t : Fin n → Tape) :
    ∃ aggregator : Fin n → Aggregator, Accord capacity
        (fun i => exchange (Player.numbered i)) s t (fun _ => ())
        (fun i => ⟨Opener.record { (s i).opener with
            opened := b.map (·.secret), aggregator := aggregator i },
          (s i).ledger.record { (s i).opener with
            opened := b.map (·.secret), aggregator := aggregator i }⟩) t ∧
      ∀ i, ∃ packed, aggregator i = { a with packed } := by
  obtain ⟨aggregator, hacc, ha'⟩ := Opener.exchangeShares_accord hcap hpos hn hmode ha b hopened
    hlengths t
  refine ⟨aggregator, ?_, ha'⟩
  refine (Accord.zoom hacc).bind ?_
  refine Accord.bind_done (fun _ => rfl) ?_
  refine Accord.bind_done (fun _ => rfl) ?_
  exact Accord.of_done (fun i => run_checkIfDue _ (hdue i)) t

end Account

variable [Wire T]

end AuthShares
