import AuthShares.Proofs.Network.Accord
import AuthShares.Proofs.Numbering

/-!
# Messages that are all heard

Some parties send, and some hear what was sent to them. If the lists of those who send and
those who hear match, all messages come and the queues are empty again. In the simplest case
every party sends one message to all others and then waits for theirs.
-/

set_option autoImplicit false

namespace AuthShares

variable {n : Nat} {α : Type} {capacity : Option Nat}

def byNumber (packet : Fin n → Bytes) (a : Nat) : Bytes :=
  if h : a < n then packet ⟨a, h⟩ else []

theorem byNumber_val (packet : Fin n → Bytes) (a : Fin n) : byNumber packet a = packet a :=
  dif_pos a.isLt

namespace World

/-- The parties of `R` send, and those of `K` hear just what was sent to them, be they among
those that have sent or not. -/
theorem leads_exchange (hcap : capacity ≠ some 0) (R K : Finset (Fin n)) (packet : Fin n → Bytes)
    (settlement settlement' : Fin n → Settlement) (phase phase' : Fin n → String)
    (targets sources : Fin n → List Nat) (sent : Fin n → Except ChannelError Unit → Protocol α)
    (accept : Fin n → Bytes → Except ChannelError Unit)
    (heard : Fin n → Except ChannelError (List Bytes) → Protocol α) (p p' : Fin n → Protocol α)
    (t : Fin n → Tape)
    (hp : ∀ i ∈ R, p i = .scatter (settlement i) (phase i)
      ((targets i).map fun party => (party, packet i)) (sent i))
    (hsent : ∀ i ∈ K, (if i ∈ R then sent i (.ok ()) else p i) =
      .gather (settlement' i) (phase' i) (sources i) (accept i) (heard i))
    (hmatch : ∀ a b : Fin n, a ∈ R ∧ b.val ∈ targets a ↔ b ∈ K ∧ a.val ∈ sources b)
    (htargets : ∀ i ∈ R, (targets i).Nodup ∧ ∀ x ∈ targets i, x < n ∧ x ≠ i)
    (hsources : ∀ i ∈ K, (sources i).Nodup ∧ ∀ x ∈ sources i, x < n ∧ x ≠ i)
    (haccept : ∀ i ∈ K, ∀ j : Fin n, j.val ∈ sources i → accept i (packet j) = .ok ())
    (hp' : ∀ i, p' i = if i ∈ K then heard i (.ok ((sources i).map (byNumber packet)))
      else if i ∈ R then sent i (.ok ()) else p i) :
    ∃ k, Leads capacity k (start p t .empty) (start p' t .empty) := by
  let p₁ : Fin n → Protocol α := fun i => if i ∈ R then sent i (.ok ()) else p i
  let q₁ : Queues n := fun a b => if a ∈ R ∧ b.val ∈ targets a then [packet a] else []
  obtain ⟨k, hk⟩ : ∃ k, Leads capacity k (start p t .empty) (start p₁ t q₁) :=
    leads_scatters hcap R settlement phase targets (fun i _ => packet i) sent p p₁ t .empty q₁ hp
      (fun i hi => (htargets i hi).1) (fun i hi => (htargets i hi).2) (fun _ _ _ _ => rfl)
      (fun _ => rfl) fun _ _ => rfl
  obtain ⟨l, hl⟩ : ∃ l, Leads capacity l (start p₁ t q₁) (start p' t .empty) := by
    refine leads_gathers capacity K settlement' phase' sources (fun _ => byNumber packet) accept
      heard p₁ p' t q₁ .empty hsent (fun i hi => (hsources i hi).1) (fun i hi => (hsources i hi).2)
      (fun i hi a ha => ⟨[], ?_⟩) (fun i hi a ha => ?_) hp' fun a b => ?_
    · rw [byNumber_val]
      exact if_pos ((hmatch a i).mpr ⟨hi, ha⟩)
    · have han := ((hsources i hi).2 a ha).1
      have hnumber : byNumber packet a = packet ⟨a, han⟩ := dif_pos han
      rw [hnumber]
      exact haccept i hi ⟨a, han⟩ ha
    · by_cases h : a ∈ R ∧ b.val ∈ targets a
      · simp only [q₁, if_pos h, if_pos ((hmatch a b).mp h)]
        rfl
      · simp only [q₁, if_neg h, if_neg (mt (hmatch a b).mpr h)]
        rfl
  exact ⟨k + l, hk.trans hl⟩

theorem together_everyone (hcap : capacity ≠ some 0) (packet : Fin n → Bytes)
    (p : Fin n → Protocol α) (settlement settlement' : Fin n → Settlement)
    (phase phase' : Fin n → String) (sent : Fin n → Except ChannelError Unit → Protocol α)
    (accept : Fin n → Bytes → Except ChannelError Unit)
    (heard : Fin n → Except ChannelError (List Bytes) → Protocol α) (result : Fin n → α)
    (hp : ∀ i, p i = .scatter (settlement i) (phase i)
      ((Player.numbered i).others.map fun party => (party, packet i)) (sent i))
    (hsent : ∀ i, sent i (.ok ()) = .gather (settlement' i) (phase' i)
      (Player.numbered i).others (accept i) (heard i))
    (haccept : ∀ i j, j ≠ i → accept i (packet j) = .ok ())
    (hheard : ∀ i, heard i (.ok ((Player.numbered i).others.map (byNumber packet))) =
      .done (result i)) (t : Fin n → Tape) :
    Together capacity p t result t := by
  have hothers : ∀ i : Fin n, (Player.numbered i).others.Nodup ∧
      ∀ k ∈ (Player.numbered i).others, k < n ∧ k ≠ i :=
    fun i => ⟨Player.others_nodup _, fun k hk => Player.mem_others.mp hk⟩
  have hmem : ∀ a b : Fin n, b.val ∈ (Player.numbered a).others ↔ b ≠ a := by
    intro a b
    rw [Player.mem_others, ne_eq, ne_eq, Player.numbered_me, Fin.val_inj]
    exact and_iff_right b.isLt
  have hmatch : ∀ a b : Fin n, a ∈ Finset.univ ∧ b.val ∈ (Player.numbered a).others ↔
      b ∈ Finset.univ ∧ a.val ∈ (Player.numbered b).others := by
    intro a b
    rw [hmem, hmem]
    exact and_congr (by simp) ne_comm
  refine leads_exchange hcap Finset.univ Finset.univ packet settlement settlement' phase phase'
    (fun i => (Player.numbered i).others) (fun i => (Player.numbered i).others) sent accept heard
    p _ t (fun i _ => hp i) (fun i hi => ?_) hmatch (fun i _ => hothers i) (fun i _ => hothers i)
    (fun i _ j hj => haccept i j ((hmem i j).mp hj)) fun i => ?_
  · rw [if_pos hi, hsent]
  · rw [if_pos (Finset.mem_univ i), hheard]

end World

end AuthShares
