import AuthShares.Aggregation.Aggregator
import AuthShares.Proofs.Aggregation.Codec
import AuthShares.Proofs.Element.Modular
import AuthShares.Proofs.Network.Accord
import Mathlib.Algebra.BigOperators.Group.Finset.Basic

/-!
# Whose values are in a sum

While values are summed, every value of every party is the sum of the inputs of some of
the parties, at the same position. It is enough to follow these sets: adding a received
value unites two sets, which must not meet, and replacing a value takes over the other
set. Sums are taken modulo a number that may differ from position to position, so that
values can be cut to their declared lengths.
-/

set_option autoImplicit false

namespace AuthShares

open scoped BigOperators

namespace Summation

variable {T : Type} [Element T]

theorem run_pack (lengths : List (Option Nat)) (start stop : Nat) (s : Summation T) :
    (pack lengths start stop : Action (Summation T) Bytes).run.run s =
      .done (.ok (Message.encodeRange lengths start stop s.values),
        { s with packed := Message.encodeRange lengths start stop s.values }) := rfl

theorem run_packAll (lengths : List (Option Nat)) (s : Summation T) :
    (packAll lengths : Action (Summation T) Bytes).run.run s =
      .done (.ok (Message.encodeRange lengths 0 s.values.length s.values),
        { s with packed := Message.encodeRange lengths 0 s.values.length s.values }) := rfl

theorem run_absorb_values (combine : Combine) {lengths : List (Option Nat)} {m start stop : Nat}
    {s : Summation T} {y : List T} (hs : s.values.length = m) (hy : y.length = m)
    (hle : start ≤ stop) (hstop : stop ≤ m)
    (hsend : ∀ k < m, Element.Sendable (lengths.getD k none) (y.getD k 0)) :
    ∃ zs : List T, (absorb combine lengths start stop
        (Message.encodeRange lengths start stop y) : Action (Summation T) Unit).run.run s =
      .done (.ok (), { s with values := zs }) ∧ zs.length = m ∧
      ∀ k < m, zs.getD k 0 = if start ≤ k ∧ k < stop then
        combine.apply (s.values.getD k 0) (Element.arrival (lengths.getD k none) (y.getD k 0))
      else s.values.getD k 0 := by
  obtain ⟨zs, habs, hlen, hget⟩ := Message.absorbRange_encodeRange combine lengths
    (hs.trans hy.symm) hle (hs ▸ hstop) fun k _ hk => hsend k (by omega)
  rw [hs] at hlen hget
  refine ⟨zs, ?_, hlen, hget⟩
  rw [absorb, Action.run_bind_done (Action.run_get s), habs]
  rfl

theorem run_absorbAll_values (combine : Combine) {lengths : List (Option Nat)} {m : Nat}
    {s : Summation T} {y : List T} (hs : s.values.length = m) (hy : y.length = m)
    (hsend : ∀ k < m, Element.Sendable (lengths.getD k none) (y.getD k 0)) :
    ∃ zs : List T, (absorbAll combine lengths (Message.encodeRange lengths 0 m y) :
        Action (Summation T) Unit).run.run s = .done (.ok (), { s with values := zs }) ∧
      zs.length = m ∧ ∀ k < m, zs.getD k 0 =
        combine.apply (s.values.getD k 0) (Element.arrival (lengths.getD k none) (y.getD k 0)) := by
  obtain ⟨zs, hrun, hlen, hget⟩ := run_absorb_values combine hs hy (Nat.zero_le m) le_rfl hsend
  refine ⟨zs, ?_, hlen, fun k hk => by rw [hget k hk, if_pos ⟨Nat.zero_le k, hk⟩]⟩
  rw [absorbAll, Action.run_bind_done (Action.run_get s), hs]
  exact hrun

end Summation

variable {n : Nat} {T : Type} [MacElement T] [Modular T]

/-- Canonical values can be sent in the declared lengths. Those that are sums of inputs of some
of the parties arrive with the same residues. -/
structure Faithful (T : Type) [MacElement T] [Modular T] (lengths : List (Option Nat))
    (q : Nat → Nat) (m : Nat) (x : Fin n → List T) : Prop where
  dvd (k : Nat) : q k ∣ Modular.modulus T
  sendable (k : Nat) (hk : k < m) (y : T) (hy : Element.isCanonical y) :
    Element.Sendable (lengths.getD k none) y
  residue (k : Nat) (hk : k < m) (y : T) (hy : Element.isCanonical y) (W : Finset (Fin n))
    (hW : Modular.residue (q k) y = ∑ j ∈ W, Modular.residue (q k) ((x j).getD k 0)) :
    Modular.residue (q k) (Element.arrival (lengths.getD k none) y) = Modular.residue (q k) y

/-- The `m` values of a list are canonical, and the one at position `k` is the sum of the
inputs of the parties in `who k`. -/
structure Shows (q : Nat → Nat) (m : Nat) (x : Fin n → List T) (v : List T)
    (who : Nat → Finset (Fin n)) : Prop where
  length : v.length = m
  canonical (k : Nat) : Element.isCanonical (v.getD k 0)
  residue (k : Nat) (hk : k < m) : Modular.residue (q k) (v.getD k 0) =
    ∑ j ∈ who k, Modular.residue (q k) ((x j).getD k 0)

def Combine.who : Combine → Finset (Fin n) → Finset (Fin n) → Finset (Fin n)
  | .add, W, V => W ∪ V
  | .replace, _, V => V

variable {q : Nat → Nat} {m : Nat} {x : Fin n → List T} {lengths : List (Option Nat)}

theorem Modular.getD_canonical {v : List T} (h : ∀ y ∈ v, Element.isCanonical y) (k : Nat) :
    Element.isCanonical (v.getD k 0) := by
  by_cases hk : k < v.length
  · rw [List.getD_eq_getElem _ _ hk]
    exact h _ (List.getElem_mem hk)
  · rw [List.getD_eq_default _ _ (by omega)]
    exact Modular.zero_canonical

theorem Shows.input (hlen : ∀ i, (x i).length = m)
    (hcan : ∀ i, ∀ y ∈ x i, Element.isCanonical y) (i : Fin n) :
    Shows q m x (x i) fun _ => {i} where
  length := hlen i
  canonical := Modular.getD_canonical (hcan i)
  residue k _ := by rw [Finset.sum_singleton]

namespace Shows

variable {v y : List T} {W V U : Nat → Finset (Fin n)}

theorem congr (h : Shows q m x v W) (hU : ∀ k < m, U k = W k) : Shows q m x v U where
  length := h.length
  canonical := h.canonical
  residue k hk := by rw [hU k hk, h.residue k hk]

/-- What a party holds if some of its values have been combined with others that arrived. -/
theorem combined (f : Faithful T lengths q m x) (hv : Shows q m x v W) (hy : Shows q m x y V)
    (combine : Combine) {zs : List T} (hlen : zs.length = m) (P : Nat → Prop) [DecidablePred P]
    (hget : ∀ k < m, zs.getD k 0 = if P k then
      combine.apply (v.getD k 0) (Element.arrival (lengths.getD k none) (y.getD k 0))
    else v.getD k 0)
    (hd : combine = .add → ∀ k < m, P k → Disjoint (W k) (V k))
    (hU : ∀ k < m, U k = if P k then combine.who (W k) (V k) else W k) : Shows q m x zs U := by
  refine ⟨hlen, fun k => ?_, fun k hk => ?_⟩
  · by_cases hk : k < m
    · rw [hget k hk]
      split
      · have harr := (f.sendable k hk _ (hy.canonical k)).canonical
        cases combine with
        | add => exact Modular.add_canonical (hv.canonical k) harr
        | replace => exact harr
      · exact hv.canonical k
    · rw [List.getD_eq_default _ _ (by omega)]
      exact Modular.zero_canonical
  · rw [hget k hk, hU k hk]
    split
    · rename_i hr
      have harr := (f.sendable k hk _ (hy.canonical k)).canonical
      have hres := f.residue k hk _ (hy.canonical k) (V k) (hy.residue k hk)
      cases combine with
      | add =>
        rw [Combine.apply, Modular.residue_add (f.dvd k) (hv.canonical k) harr, hres,
          hv.residue k hk, hy.residue k hk, Combine.who,
          Finset.sum_union (hd rfl k hk hr)]
      | replace => rw [Combine.apply, hres, hy.residue k hk, Combine.who]
    · exact hv.residue k hk

end Shows

namespace Summation

variable {s : Summation T} {y : List T} {W V U : Nat → Finset (Fin n)}

theorem run_absorbAll (f : Faithful T lengths q m x) (hs : Shows q m x s.values W)
    (hy : Shows q m x y V) (combine : Combine)
    (hd : combine = .add → ∀ k < m, Disjoint (W k) (V k))
    (hU : ∀ k < m, U k = combine.who (W k) (V k)) :
    ∃ s' : Summation T, (absorbAll combine lengths
        (Message.encodeRange lengths 0 m y) : Action (Summation T) Unit).run.run s =
      .done (.ok (), s') ∧ Shows q m x s'.values U := by
  obtain ⟨zs, hrun, hlen, hget⟩ := run_absorbAll_values combine hs.length hy.length
    fun k hk => f.sendable k hk _ (hy.canonical k)
  exact ⟨_, hrun, hs.combined f hy combine hlen (fun _ => True)
    (fun k hk => by rw [hget k hk, if_pos trivial]) (fun hc k hk _ => hd hc k hk)
    (fun k hk => by rw [hU k hk, if_pos trivial])⟩

theorem run_absorbEach (f : Faithful T lengths q m x) {ι : Type} (js : List ι) (y : ι → List T)
    (V : ι → Finset (Fin n)) {W : Finset (Fin n)} (hs : Shows q m x s.values fun _ => W)
    (hy : ∀ j ∈ js, Shows q m x (y j) fun _ => V j) (hd : ∀ j ∈ js, Disjoint W (V j))
    (hpair : js.Pairwise fun j k => Disjoint (V j) (V k)) :
    ∃ s' : Summation T, (absorbEach .add lengths
        (js.map fun j => Message.encodeRange lengths 0 m (y j)) :
        Action (Summation T) Unit).run.run s = .done (.ok (), s') ∧
      Shows q m x s'.values fun _ => js.foldl (fun W j => W ∪ V j) W := by
  induction js generalizing s W with
  | nil => exact ⟨s, rfl, hs⟩
  | cons j js ih =>
    obtain ⟨u, hu, hus⟩ := run_absorbAll (U := fun _ => W ∪ V j) f hs (hy j (by simp)) .add
      (fun _ _ _ => hd j (by simp)) (fun _ _ => rfl)
    obtain ⟨hj, hrest⟩ := List.pairwise_cons.mp hpair
    obtain ⟨v, hv, hvs⟩ := ih hus (fun k hk => hy k (by simp [hk]))
      (fun k hk => Finset.disjoint_union_left.mpr ⟨hd k (by simp [hk]), hj k hk⟩) hrest
    refine ⟨v, ?_, hvs⟩
    rw [List.map_cons, absorbEach, Action.run_bind_done hu]
    exact hv

end Summation

theorem mem_foldl_union {ι : Type} (js : List ι) (V : ι → Finset (Fin n)) (W : Finset (Fin n))
    (z : Fin n) :
    z ∈ js.foldl (fun W j => W ∪ V j) W ↔ z ∈ W ∨ ∃ j ∈ js, z ∈ V j := by
  induction js generalizing W with
  | nil => simp
  | cons j js ih =>
    rw [List.foldl_cons, ih, Finset.mem_union, List.exists_mem_cons_iff, or_assoc]

end AuthShares
