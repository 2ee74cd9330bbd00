import AuthShares.Proofs.Bytes.Wire
import AuthShares.Proofs.Network.Everyone

/-!
# Commitments among parties that follow the protocol

If all parties broadcast lists of one length, all of them get the lists of everyone. So
nobody hears two stories, every opening matches its commitment, and the coins that are
tossed are the same everywhere, whatever the parties have drawn.
-/

set_option autoImplicit false

namespace AuthShares

variable {n : Nat} {α β : Type} {capacity : Option Nat}

theorem insertIdx_map_eraseIdx (f : α → β) (xs : List α) (i : Nat) (h : i < xs.length) :
    ((xs.eraseIdx i).map f).insertIdx i (f xs[i]) = xs.map f := by
  induction xs generalizing i with
  | nil => cases h
  | cons x xs ih =>
    cases i with
    | zero => rfl
    | succ i => exact congrArg _ (ih i (Nat.lt_of_succ_lt_succ h))

theorem Player.others_numbered (i : Fin n) :
    (Player.numbered i).others = (List.range n).eraseIdx i := by
  have hlt : i.val < (List.range n).length := by simp
  have hget : (List.range n)[i.val] = i.val := by simp
  rw [← List.nodup_range.erase_getElem i.val hlt, hget, List.nodup_range.erase_eq_filter]
  rfl

theorem insertIdx_others (i : Fin n) (f : Nat → α) :
    ((Player.numbered i).others.map f).insertIdx i (f i) = (List.range n).map f := by
  have h := insertIdx_map_eraseIdx f (List.range n) i (by simp)
  simp only [List.getElem_range] at h
  rw [Player.others_numbered, h]

namespace World

theorem Together.thenDo {ε : Type} {m : Fin n → ExceptT ε Protocol α}
    {f : Fin n → α → ExceptT ε Protocol β} {t t' t'' : Fin n → Tape} {a : Fin n → α}
    {b : Fin n → Except ε β} (h : Together capacity (fun i => (m i).run) t (fun i => .ok (a i)) t')
    (h' : Together capacity (fun i => (f i (a i)).run) t' b t'') :
    Together capacity (fun i => (m i >>= f i).run) t b t'' := h.bind h'

theorem Together.lift {m : Fin n → Link α} {t t' : Fin n → Tape} {a : Fin n → α}
    (h : Together capacity (fun i => (m i).run) t (fun i => .ok (a i)) t') :
    Together capacity (fun i => (liftM (m i) : Interaction α).run) t (fun i => .ok (a i)) t' :=
  h.bind (Together.pure _ t')

end World

variable [Wire α] [LawfulWire α]

/-- Lists of one length that everyone broadcasts come to everyone. -/
theorem Link.broadcast_together (hcap : capacity ≠ some 0) (phase : String) (xs : Fin n → List α)
    {size : Nat} (hlen : ∀ i, (xs i).length = size) (hsize : size < wordRange)
    (t : Fin n → Tape) :
    World.Together capacity (fun i => (broadcast (Player.numbered i) phase (xs i)).run) t
      (fun _ => .ok (List.ofFn xs)) t := by
  let packet : Fin n → Bytes := fun i => Wire.encode (xs i)
  let lists : Nat → List α := fun a => if h : a < n then xs ⟨a, h⟩ else []
  have hlists : ∀ a : Fin n, lists a = xs a := fun a => dif_pos a.isLt
  have hall : (List.range n).map lists = List.ofFn xs :=
    List.ext_getElem (by simp) fun a ha _ => by simpa using hlists ⟨a, by simpa using ha⟩
  have hdecode : ∀ i j : Fin n, decodeListOf phase (xs i).length (packet j) = .ok (xs j) := by
    intro i j
    rw [hlen i, ← hlen j]
    exact decodeListOf_encode phase (xs j) (hlen j ▸ hsize)
  have hmapM : ∀ i : Fin n, ((Player.numbered i).others.map (byNumber packet)).mapM
      (decodeListOf phase (xs i).length) = .ok ((Player.numbered i).others.map lists) := by
    intro i
    rw [List.mapM_map]
    refine mapM_ok_of_forall _ lists _ fun a ha => ?_
    obtain ⟨han, -⟩ := Player.mem_others.mp ha
    have hp := byNumber_val packet ⟨a, han⟩
    rw [Function.comp_apply, hp, hdecode, hlists ⟨a, han⟩]
  let rest : Fin n → List (List α) → Link (List (List α)) := fun i received =>
    return received.insertIdx i (xs i)
  refine World.together_everyone hcap packet _ (fun _ => .ofSize n) (fun _ => .ofSize n)
    (fun _ => phase) (fun _ => phase)
    (fun i => after fun _ => gather n phase (Player.numbered i).others
      (decodeListOf phase (xs i).length) >>= rest i)
    (fun i bs => (decodeListOf (α := α) phase (xs i).length bs).map fun _ => ())
    (fun i r => after (rest i) (r.bind fun messages =>
      messages.mapM (decodeListOf phase (xs i).length))) _ (fun i => run_scatter n phase _ _)
    (fun i => run_gather n phase _ _ (rest i)) (fun i j _ => ?_) (fun i => ?_) t
  · rw [hdecode i j]
    rfl
  · show after (rest i) (((Player.numbered i).others.map (byNumber packet)).mapM
      (decodeListOf phase (xs i).length)) = _
    rw [hmapM i]
    show Protocol.done (Except.ok (((Player.numbered i).others.map lists).insertIdx i (xs i))) = _
    rw [← hlists i, insertIdx_others, hall]

namespace Interaction

/-- Nobody sees a difference between what the others have received. -/
theorem echoBroadcast_together (hcap : capacity ≠ some 0) (hn : n < wordRange) (phase : String)
    (xs : Fin n → List α) {size : Nat} (hlen : ∀ i, (xs i).length = size)
    (hsize : size < wordRange) (t : Fin n → Tape) :
    World.Together capacity (fun i => (echoBroadcast (Player.numbered i) phase (xs i)).run) t
      (fun _ => .ok (List.ofFn xs)) t := by
  refine (Link.broadcast_together hcap phase xs hlen hsize t).lift.thenDo ?_
  by_cases hfew : n ≤ 2
  · simp only [Player.numbered_players, hfew, ↓reduceIte]
    exact World.Together.pure _ t
  · simp only [Player.numbered_players, hfew, ↓reduceIte]
    let digests : List Bytes32 := (List.ofFn xs).map fun list => Blake3.hash (Wire.encode list)
    have hdigests : ∀ _ : Fin n, digests.length = n := fun _ => by simp [digests]
    refine (Link.broadcast_together hcap (phase ++ " verification") (fun _ => digests) hdigests hn
      t).lift.thenDo ?_
    have hviews : (List.ofFn fun _ : Fin n => digests).all (· == digests) = true := by simp
    simp only [hviews, digests]
    exact World.Together.pure _ t

theorem draw_together (t : Fin n → Tape) :
    World.Together capacity (fun _ => draw.run) t (fun i => .ok (t i 0)) fun i => (t i).tail :=
  World.leads_draws capacity (fun _ r => .done (Except.ok r)) t .empty

theorem opens_commit (bs : Bytes) : opens (commit bs) bs = true := by
  simp [opens]

omit [LawfulWire α] in
theorem checkOpenings_ofFn {k : Nat} (me party : Nat) (value : Fin k → α)
    (nonce : Fin k → Bytes32) :
    checkOpenings me party (List.ofFn fun j : Fin k =>
      ([commit (committedBytes (value j) (nonce j) (party + j))], [(value j, nonce j)])) =
      .ok (List.ofFn value) := by
  induction k generalizing party with
  | zero => rfl
  | succ k ih =>
    have hrest := ih (party + 1) (fun j => value j.succ) fun j => nonce j.succ
    have hnumber : ∀ j : Fin k, party + 1 + j.val = party + j.succ.val := fun j => by
      rw [Fin.val_succ]
      omega
    simp only [hnumber] at hrest
    rw [List.ofFn_succ, checkOpenings, if_pos (.inr (opens_commit _)), hrest, List.ofFn_succ]
    rfl

/-- Everyone gets the values of all, whatever the nonces are. -/
theorem commitThenOpen_together (hcap : capacity ≠ some 0) (hn : n < wordRange) (phase : String)
    (value : Fin n → α) (t : Fin n → Tape) :
    World.Together capacity
      (fun i => (commitThenOpen (Player.numbered i) phase (value i)).run) t
      (fun _ => .ok (List.ofFn value)) fun i => (t i).tail := by
  let commitments : Fin n → List Bytes32 := fun i => [commit (committedBytes (value i) (t i 0) i)]
  let openings : Fin n → List (α × Bytes32) := fun i => [(value i, t i 0)]
  have hone : 1 < wordRange := by decide
  have hzip : (List.ofFn commitments).zip (List.ofFn openings) = List.ofFn fun j : Fin n =>
      ([commit (committedBytes (value j) (t j 0) (0 + j))], [(value j, t j 0)]) :=
    List.ext_getElem (by simp) fun k _ _ => by simp [commitments, openings]
  refine (draw_together t).thenDo ?_
  refine (echoBroadcast_together hcap hn (phase ++ " comm") commitments (fun _ => rfl) hone
    _).thenDo ?_
  refine (Link.broadcast_together hcap (phase ++ " open") openings (fun _ => rfl) hone
    _).lift.thenDo ?_
  rw [hzip]
  simp only [checkOpenings_ofFn]
  exact World.Together.pure _ _

def commonCoins (t : Fin n → Tape) : Generator :=
  Generator.ofKey ((List.ofFn fun i => t i 0).foldl addBits zeroBytes)

theorem tossCoins_together (hcap : capacity ≠ some 0) (hn : n < wordRange) (t : Fin n → Tape) :
    World.Together capacity (fun i => (tossCoins (Player.numbered i)).run) t
      (fun _ => .ok (commonCoins t)) fun i => (t i).tail.tail := by
  refine (draw_together t).thenDo ?_
  refine (commitThenOpen_together hcap hn "RNG" _ _).thenDo ?_
  exact World.Together.pure _ _

end Interaction

end AuthShares
