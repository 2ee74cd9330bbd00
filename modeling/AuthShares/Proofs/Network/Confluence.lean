import AuthShares.Proofs.Network.Moves
import Mathlib.Tactic.Common

/-!
# One good run decides all runs

A move goes well if no part of the party's action fails by it and no two parts of that
action are about the same peer. Moves of different parties, and moves for different
parts of one action that go well, can be exchanged. So one run of moves that go well, up
to a world in which all parties have ended, decides every run: all of them end there,
after the same number of moves.
-/

set_option autoImplicit false

namespace AuthShares

variable {n : Nat} {α : Type} {capacity : Option Nat}

namespace Group

def peers (g : Group) : List Nat := g.map fun x => x.1.peer

def Clean (g : Group) : Prop :=
  g.peers.Nodup ∧ ∀ (k : Nat) (part : Part) (e : ChannelError), g[k]? ≠ some (part, .failed e)

theorem peers_set {g : Group} {k : Nat} {p : Part} {x : Stage} (h : g[k]? = some (p, x))
    (y : Stage) : peers (g.set k (p, y)) = g.peers := by
  obtain ⟨hlt, he⟩ := List.getElem?_eq_some_iff.mp h
  rw [peers, List.map_set, peers]
  apply List.ext_getElem? fun l => ?_
  by_cases hl : k = l
  · subst hl
    simp [hlt, he]
  · rw [List.getElem?_set_ne hl]

theorem Clean.tail {x : Part × Stage} {g : Group} (hc : Clean (x :: g)) : Clean g :=
  ⟨(List.nodup_cons.mp hc.1).2, fun k => hc.2 (k + 1)⟩

theorem Clean.fault_eq_none {g : Group} (hc : g.Clean) (settlement : Settlement) (clear : Bool) :
    g.fault? settlement clear = none := by
  induction g generalizing clear with
  | nil => rfl
  | cons x g ih =>
    obtain ⟨part, stage⟩ := x
    cases stage with
    | failed e => exact absurd rfl (hc.2 0 part e)
    | _ => exact ih hc.tail _

theorem messages_eq_none {g : Group} {k : Nat} {part : Part} (h : g[k]? = some (part, .fresh)) :
    g.messages? = none := by
  induction g generalizing k with
  | nil => simp at h
  | cons x g ih =>
    unfold messages? at ih ⊢
    rw [List.mapM_cons]
    cases k with
    | zero =>
      obtain rfl : x = (part, .fresh) := by simpa using h
      rfl
    | succ k =>
      rw [ih (by simpa using h)]
      cases x.2.done? <;> rfl

theorem Clean.outcome_eq_none {g : Group} (hc : g.Clean) {k : Nat} {part : Part}
    (h : g[k]? = some (part, .fresh)) (settlement : Settlement) :
    g.outcome? settlement = none := by
  rw [outcome?, hc.fault_eq_none, messages_eq_none h]
  rfl

theorem Clean.peer_ne {g : Group} (hc : g.Clean) {k l : Nat} (hkl : k ≠ l) {p p' : Part}
    {x x' : Stage} (hk : g[k]? = some (p, x)) (hl : g[l]? = some (p', x')) :
    p.peer ≠ p'.peer := by
  intro h
  have hk' : g.peers[k]? = some p.peer := by simp [peers, hk]
  have hl' : g.peers[l]? = some p.peer := by simp [peers, hl, h]
  obtain ⟨hlt, _⟩ := List.getElem?_eq_some_iff.mp hk'
  exact hkl ((List.getElem?_inj hlt hc.1).mp (hk'.trans hl'.symm))

/-- Settling a part that was fresh does not make a group clean. -/
theorem Clean.of_set {g : Group} {k : Nat} {p : Part} {y : Stage} (h : g[k]? = some (p, .fresh))
    (hc : Clean (g.set k (p, y))) : Clean g := by
  refine ⟨peers_set h y ▸ hc.1, fun l part e hl => ?_⟩
  by_cases hkl : k = l
  · subst hkl
    rw [h] at hl
    cases hl
  · exact hc.2 l part e (by rw [List.getElem?_set_ne hkl, hl])

end Group

namespace Queues

theorem push_of_ne (q : Queues n) {s t a b : Fin n} {bs : Bytes} (h : ¬ (a = s ∧ b = t)) :
    q.push s t bs a b = q a b := if_neg h

theorem pop_of_ne (q : Queues n) {s t a b : Fin n} (h : ¬ (a = s ∧ b = t)) :
    q.pop s t a b = q a b := if_neg h

theorem push_comm (q : Queues n) {s t s' t' : Fin n} (h : ¬ (s = s' ∧ t = t')) (bs bs' : Bytes) :
    (q.push s t bs).push s' t' bs' = (q.push s' t' bs').push s t bs := by
  funext a b
  simp only [push]
  split_ifs with h₁ h₂ <;> grind

theorem pop_comm (q : Queues n) {s t s' t' : Fin n} (h : ¬ (s = s' ∧ t = t')) :
    (q.pop s t).pop s' t' = (q.pop s' t').pop s t := by
  funext a b
  simp only [pop]
  split_ifs with h₁ h₂ <;> grind

theorem push_pop_comm (q : Queues n) {s t s' t' : Fin n} {bs : Bytes} (h : q s' t' ≠ []) :
    (q.push s t bs).pop s' t' = (q.pop s' t').push s t bs := by
  funext a b
  simp only [push, pop]
  split_ifs with h₁ h₂ <;> grind

end Queues

theorem hasPlace_pop {q : Queues n} (s t : Fin n) {a b : Fin n}
    (h : hasPlace capacity (q a b) = true) : hasPlace capacity (q.pop s t a b) = true := by
  cases capacity with
  | none => rfl
  | some most =>
    have hl : (q.pop s t a b).length ≤ (q a b).length := by
      unfold Queues.pop
      split <;> simp
    simp only [hasPlace, decide_eq_true_eq] at h ⊢
    omega

inductive Settled (capacity : Option Nat) (me : Fin n) (phase : String)
    (accept : Bytes → Except ChannelError Unit) (q : Queues n) :
    Part → Stage → Queues n → Prop where
  | sent (target : Fin n) (bs : Bytes) (hne : target ≠ me)
      (hp : hasPlace capacity (q me target) = true) :
      Settled capacity me phase accept q (.outgoing target bs) (.done []) (q.push me target bs)
  | heard (source : Fin n) (bs : Bytes) (rest : List Bytes) (hne : source ≠ me)
      (hq : q source me = bs :: rest) :
      Settled capacity me phase accept q (.incoming source)
        (.ofMessage accept bs) (q.pop source me)
  | unsendable (target : Nat) (bs : Bytes) (h : ¬ (target < n ∧ target ≠ me)) :
      Settled capacity me phase accept q (.outgoing target bs)
        (.failed (.send phase (.noSuchParty target))) q
  | unheard (source : Nat) (h : ¬ (source < n ∧ source ≠ me)) :
      Settled capacity me phase accept q (.incoming source)
        (.failed (.receive phase (.noSuchParty source))) q

theorem settlePart_eq_some_iff {me : Fin n} {phase : String}
    {accept : Bytes → Except ChannelError Unit} {q q' : Queues n} {p : Part} {x : Stage} :
    settlePart capacity me phase accept q p = some (x, q') ↔
      Settled capacity me phase accept q p x q' := by
  constructor
  · intro h
    cases p with
    | outgoing target bs =>
      rw [settlePart] at h
      split at h
      · rename_i hc
        split at h
        · rename_i hp
          cases h
          exact .sent ⟨target, hc.1⟩ bs (fun he => hc.2 (congrArg Fin.val he)) hp
        · cases h
      · rename_i hc
        cases h
        exact .unsendable target bs hc
    | incoming source =>
      rw [settlePart] at h
      split at h
      · rename_i hc
        split at h
        · cases h
        · rename_i bs rest hq
          cases h
          exact .heard ⟨source, hc.1⟩ bs rest (fun he => hc.2 (congrArg Fin.val he)) hq
      · rename_i hc
        cases h
        exact .unheard source hc
  · intro h
    cases h with
    | sent target bs hne hp =>
      rw [settlePart, dif_pos ⟨target.isLt, fun he => hne (Fin.ext he)⟩, if_pos hp]
    | heard source bs rest hne hq =>
      rw [settlePart, dif_pos ⟨source.isLt, fun he => hne (Fin.ext he)⟩]
      simp only [Fin.eta, hq]
    | unsendable target bs h => rw [settlePart, dif_neg h]
    | unheard source h => rw [settlePart, dif_neg h]

/-- Parts of different parties, or about different peers, can be settled in either order. -/
theorem settlePart_comm {i j : Fin n} {p p' : Part} (h : i ≠ j ∨ p.peer ≠ p'.peer)
    {phase phase' : String} {accept accept' : Bytes → Except ChannelError Unit}
    {q q₁ q₂ : Queues n} {x x' : Stage}
    (h₁ : settlePart capacity i phase accept q p = some (x, q₁))
    (h₂ : settlePart capacity j phase' accept' q p' = some (x', q₂)) :
    ∃ q₃, settlePart capacity j phase' accept' q₁ p' = some (x', q₃) ∧
      settlePart capacity i phase accept q₂ p = some (x, q₃) := by
  simp only [settlePart_eq_some_iff] at h₁ h₂ ⊢
  cases h₁ with
  | unsendable target bs hc => exact ⟨q₂, h₂, .unsendable target bs hc⟩
  | unheard source hc => exact ⟨q₂, h₂, .unheard source hc⟩
  | sent target bs hne hp =>
    cases h₂ with
    | unsendable target' bs' hc => exact ⟨_, .unsendable target' bs' hc, .sent target bs hne hp⟩
    | unheard source hc => exact ⟨_, .unheard source hc, .sent target bs hne hp⟩
    | sent target' bs' hne' hp' =>
      have hk : ¬ (i = j ∧ target = target') := by
        rintro ⟨rfl, rfl⟩
        simp at h
      refine ⟨(q.push i target bs).push j target' bs', .sent target' bs' hne' ?_, ?_⟩
      · rwa [Queues.push_of_ne q (fun h => hk ⟨h.1.symm, h.2.symm⟩)]
      · rw [q.push_comm hk]
        exact .sent target bs hne (by rwa [Queues.push_of_ne q hk])
    | heard source bs' rest hne' hq =>
      refine ⟨(q.push i target bs).pop source j, ?_, ?_⟩
      · by_cases hk : source = i ∧ j = target
        · obtain ⟨rfl, rfl⟩ := hk
          exact .heard source bs' (rest ++ [bs]) hne' (by simp [Queues.push, hq])
        · exact .heard source bs' rest hne' (by rw [Queues.push_of_ne q hk, hq])
      · rw [q.push_pop_comm (by simp [hq])]
        exact .sent target bs hne (hasPlace_pop _ _ hp)
  | heard source bs rest hne hq =>
    cases h₂ with
    | unsendable target' bs' hc =>
      exact ⟨_, .unsendable target' bs' hc, .heard source bs rest hne hq⟩
    | unheard source' hc => exact ⟨_, .unheard source' hc, .heard source bs rest hne hq⟩
    | sent target bs' hne' hp' =>
      refine ⟨(q.pop source i).push j target bs', .sent target bs' hne' (hasPlace_pop _ _ hp'), ?_⟩
      rw [← q.push_pop_comm (by simp [hq])]
      by_cases hk : source = j ∧ i = target
      · obtain ⟨rfl, rfl⟩ := hk
        exact .heard source bs (rest ++ [bs']) hne (by simp [Queues.push, hq])
      · exact .heard source bs rest hne (by rw [Queues.push_of_ne q hk, hq])
    | heard source' bs' rest' hne' hq' =>
      have hk : ¬ (source = source' ∧ i = j) := by
        rintro ⟨rfl, rfl⟩
        simp at h
      refine ⟨(q.pop source i).pop source' j, .heard source' bs' rest' hne' ?_, ?_⟩
      · rw [Queues.pop_of_ne q (fun h => hk ⟨h.1.symm, h.2.symm⟩), hq']
      · rw [q.pop_comm hk]
        exact .heard source bs rest hne (by rw [Queues.pop_of_ne q hk, hq])

namespace Runner

variable {me : Fin n} {q q' : Queues n} {r r' : Runner α}

theorem move_settle_eq_some_iff {k : Nat} :
    r.move capacity me q (.settle k) = some (r', q') ↔
      ∃ part stage, r.next?.isNone ∧ r.group[k]? = some (part, .fresh) ∧
        settlePart capacity me r.program.phase r.program.accept q part = some (stage, q') ∧
        r' = { r with group := r.group.set k (part, stage) } := by
  rw [move]
  split
  · rename_i part hn hg
    simp only [Option.map_eq_some_iff, Prod.exists, Prod.mk.injEq, hn, hg]
    constructor
    · rintro ⟨stage, q'', hs, rfl, rfl⟩
      exact ⟨part, stage, rfl, rfl, hs, rfl⟩
    · rintro ⟨part', stage, -, he, hs, rfl⟩
      cases he
      exact ⟨stage, q', hs, rfl, rfl⟩
  · rename_i hno
    constructor
    · intro h
      cases h
    · rintro ⟨part, stage, hn, hg, -, -⟩
      exact absurd hg (hno part (Option.isNone_iff_eq_none.mp hn))

theorem move_goOn_eq_some_iff :
    r.move capacity me q .goOn = some (r', q') ↔ r.next? = some r' ∧ q' = q := by
  simp only [move, Option.map_eq_some_iff, Prod.mk.injEq]
  constructor
  · rintro ⟨_, hn, rfl, rfl⟩
    exact ⟨hn, rfl⟩
  · rintro ⟨hn, rfl⟩
    exact ⟨r', hn, rfl, rfl⟩

/-- A party whose action has a fresh part, and in which nothing failed, cannot go on yet. -/
theorem next_eq_none (hr : ∀ next, r.program ≠ .draw next) (hc : r.group.Clean) {k : Nat}
    {part : Part} (hp : r.group[k]? = some (part, .fresh)) : r.next? = none := by
  obtain ⟨program, group, tape⟩ := r
  cases program with
  | done a => rfl
  | draw next => exact absurd rfl (hr next)
  | scatter settlement phase messages next => simp [next?, hc.outcome_eq_none hp settlement]
  | gather settlement phase sources accept next => simp [next?, hc.outcome_eq_none hp settlement]

theorem move_comm {i j : Fin n} (hij : i ≠ j) {q₁ q₂ : Queues n} {a a' b b' : Runner α}
    {m m' : Move} (h₁ : a.move capacity i q m = some (a', q₁))
    (h₂ : b.move capacity j q m' = some (b', q₂)) :
    ∃ q₃, b.move capacity j q₁ m' = some (b', q₃) ∧ a.move capacity i q₂ m = some (a', q₃) := by
  cases m with
  | goOn =>
    obtain ⟨hn, rfl⟩ := move_goOn_eq_some_iff.mp h₁
    exact ⟨q₂, h₂, move_goOn_eq_some_iff.mpr ⟨hn, rfl⟩⟩
  | settle k =>
    cases m' with
    | goOn =>
      obtain ⟨hn, rfl⟩ := move_goOn_eq_some_iff.mp h₂
      exact ⟨q₁, move_goOn_eq_some_iff.mpr ⟨hn, rfl⟩, h₁⟩
    | settle k' =>
      obtain ⟨p, x, hn, hg, hs, rfl⟩ := move_settle_eq_some_iff.mp h₁
      obtain ⟨p', x', hn', hg', hs', rfl⟩ := move_settle_eq_some_iff.mp h₂
      obtain ⟨q₃, hs₃, hs₄⟩ := settlePart_comm (.inl hij) hs hs'
      exact ⟨q₃, move_settle_eq_some_iff.mpr ⟨p', x', hn', hg', hs₃, rfl⟩,
        move_settle_eq_some_iff.mpr ⟨p, x, hn, hg, hs₄, rfl⟩⟩

/-- Parts of one action can be settled in either order as long as nothing fails. -/
theorem settle_comm {q₁ q₂ : Queues n} {a b : Runner α} {k k' : Nat} (hk : k ≠ k')
    (h₁ : r.move capacity me q (.settle k) = some (a, q₁)) (ha : a.group.Clean)
    (h₂ : r.move capacity me q (.settle k') = some (b, q₂)) :
    ∃ c q₃, a.move capacity me q₁ (.settle k') = some (c, q₃) ∧
      (c.group.Clean → b.group.Clean ∧ b.move capacity me q₂ (.settle k) = some (c, q₃)) := by
  obtain ⟨p, x, hn, hg, hs, rfl⟩ := move_settle_eq_some_iff.mp h₁
  obtain ⟨p', x', hn', hg', hs', rfl⟩ := move_settle_eq_some_iff.mp h₂
  have hr : r.group.Clean := ha.of_set hg
  obtain ⟨q₃, hs₃, hs₄⟩ := settlePart_comm (.inr (hr.peer_ne hk hg hg')) hs hs'
  have hga : (r.group.set k (p, x))[k']? = some (p', .fresh) := by
    rw [List.getElem?_set_ne hk, hg']
  have hgb : (r.group.set k' (p', x'))[k]? = some (p, .fresh) := by
    rw [List.getElem?_set_ne hk.symm, hg]
  have hd : ∀ next, r.program ≠ .draw next := by
    intro next hd
    simp [next?, hd] at hn
  refine ⟨{ r with group := (r.group.set k (p, x)).set k' (p', x') }, q₃,
    move_settle_eq_some_iff.mpr ⟨p', x', ?_, hga, hs₃, rfl⟩, fun hc => ?_⟩
  · exact Option.isNone_iff_eq_none.mpr (next_eq_none hd ha hga)
  · rw [List.set_comm _ _ hk] at hc ⊢
    have hb := hc.of_set hgb
    refine ⟨hb, move_settle_eq_some_iff.mpr ⟨p, x, ?_, hgb, hs₄, rfl⟩⟩
    exact Option.isNone_iff_eq_none.mpr (next_eq_none hd hb hgb)

end Runner

namespace World

variable {w a b v : World n α} {i j : Fin n} {m m' : Move}

theorem move_eq_some_iff : w.move capacity i m = some v ↔
    ∃ r q, (w.runners i).move capacity i w.queues m = some (r, q) ∧
      v = ⟨Function.update w.runners i r, q⟩ := by
  simp only [move, Option.map_eq_some_iff, Prod.exists]
  grind

/-- A move after which no two parts of the party's action have the same peer and none has
failed; one that goes on to the next action always goes well. -/
structure Advance (capacity : Option Nat) (w : World n α) (i : Fin n) (m : Move)
    (v : World n α) : Prop where
  move : w.move capacity i m = some v
  clean : m ≠ .goOn → (v.runners i).group.Clean

/-- After a move that goes well any other move is still possible; if it goes well then,
the two can be exchanged. -/
theorem Advance.comm (ha : Advance capacity w i m a) (hb : w.move capacity j m' = some b)
    (hne : ¬ (i = j ∧ m = m')) :
    ∃ v, a.move capacity j m' = some v ∧
      (Advance capacity a j m' v → Advance capacity w j m' b ∧ Advance capacity b i m v) := by
  obtain ⟨r, q₁, h₁, rfl⟩ := move_eq_some_iff.mp ha.move
  obtain ⟨r', q₂, h₂, rfl⟩ := move_eq_some_iff.mp hb
  by_cases hij : i = j
  · subst hij
    have hm : m ≠ m' := fun h => hne ⟨rfl, h⟩
    cases m with
    | goOn =>
      cases m' with
      | goOn => exact absurd rfl hm
      | settle k' =>
        obtain ⟨_, _, hn, _⟩ := Runner.move_settle_eq_some_iff.mp h₂
        rw [(Runner.move_goOn_eq_some_iff.mp h₁).1] at hn
        cases hn
    | settle k =>
      cases m' with
      | goOn =>
        obtain ⟨_, _, hn, _⟩ := Runner.move_settle_eq_some_iff.mp h₁
        rw [(Runner.move_goOn_eq_some_iff.mp h₂).1] at hn
        cases hn
      | settle k' =>
        have hr : r.group.Clean := by simpa using ha.clean (by simp)
        obtain ⟨c, q₃, hc, himp⟩ :=
          Runner.settle_comm (fun h => hm (congrArg Move.settle h)) h₁ hr h₂
        refine ⟨⟨Function.update w.runners i c, q₃⟩,
          move_eq_some_iff.mpr ⟨c, q₃, by simpa using hc, by simp⟩, fun hv => ?_⟩
        have hcc : c.group.Clean := by simpa using hv.clean (by simp)
        obtain ⟨hb', hm'⟩ := himp hcc
        exact ⟨⟨hb, fun _ => by simpa using hb'⟩,
          ⟨move_eq_some_iff.mpr ⟨c, q₃, by simpa using hm', by simp⟩, fun _ => by simpa using hcc⟩⟩
  · obtain ⟨q₃, h₃, h₄⟩ := Runner.move_comm hij h₁ h₂
    have hji : j ≠ i := fun h => hij h.symm
    refine ⟨⟨Function.update (Function.update w.runners i r) j r', q₃⟩,
      move_eq_some_iff.mpr ⟨r', q₃, by simpa [Function.update_of_ne hji] using h₃, rfl⟩,
      fun hv => ?_⟩
    refine ⟨⟨hb, fun h => by simpa using hv.clean h⟩,
      ⟨move_eq_some_iff.mpr ⟨r, q₃, ?_, ?_⟩, fun h => ?_⟩⟩
    · simpa [Function.update_of_ne hij] using h₄
    · rw [Function.update_comm hij]
    · simpa [Function.update_of_ne hij] using ha.clean h

inductive Leads (capacity : Option Nat) : Nat → World n α → World n α → Prop where
  | nil (w : World n α) : Leads capacity 0 w w
  | cons {k : Nat} {w u v : World n α} {i : Fin n} {m : Move}
      (hm : Advance capacity w i m u) (h : Leads capacity k u v) : Leads capacity (k + 1) w v

theorem Leads.trans {k l : Nat} {w u v : World n α} (h : Leads capacity k w u)
    (h' : Leads capacity l u v) : Leads capacity (k + l) w v := by
  induction h with
  | nil w => rwa [Nat.zero_add]
  | cons hm _ ih => rw [Nat.add_right_comm]; exact .cons hm (ih h')

/-- From a world with a good run to a still one, every move goes well and leads to a world
with a good run that is shorter by one. -/
theorem Leads.step {k : Nat} {w v u : World n α} {i : Fin n} {m : Move}
    (h : Leads capacity k w v) (hv : Still capacity v) (hs : w.move capacity i m = some u) :
    Advance capacity w i m u ∧ ∃ k', k = k' + 1 ∧ Leads capacity k' u v := by
  induction h generalizing i m u with
  | nil w => exact absurd ⟨u, i, m, hs⟩ hv
  | @cons k w a v j m' hm h ih =>
    by_cases heq : j = i ∧ m' = m
    · obtain ⟨rfl, rfl⟩ := heq
      obtain rfl : a = u := Option.some.inj (hm.move.symm.trans hs)
      exact ⟨hm, k, rfl, h⟩
    · obtain ⟨c, hc, himp⟩ := hm.comm hs heq
      obtain ⟨hadv, k', rfl, hl⟩ := ih hv hc
      obtain ⟨hu, huc⟩ := himp hadv
      exact ⟨hu, k' + 1, rfl, .cons huc hl⟩

theorem Leads.run {k l : Nat} {w v u : World n α} (h : Leads capacity k w v)
    (hv : Still capacity v) (hr : Run capacity l w u) : ∃ r, k = l + r ∧ Leads capacity r u v := by
  induction hr with
  | nil w => exact ⟨k, by omega, h⟩
  | snoc _ hs ih =>
    obtain ⟨r, rfl, hl⟩ := ih h
    obtain ⟨i, m, hm⟩ := hs
    obtain ⟨-, r', rfl, hl'⟩ := hl.step hv hm
    exact ⟨r', by omega, hl'⟩

theorem Leads.toRun {k : Nat} {w v : World n α} (h : Leads capacity k w v) :
    Run capacity k w v := by
  induction h with
  | nil w => exact .nil w
  | cons hm _ ih => exact ih.cons ⟨_, _, hm.move⟩

/-- One good run to a still world decides every run. -/
theorem Leads.endsIn {k : Nat} {w v : World n α} (h : Leads capacity k w v)
    (hv : Still capacity v) : EndsIn capacity w v := by
  refine ⟨k, fun l u hr => ?_⟩
  obtain ⟨r, rfl, hl⟩ := h.run hv hr
  refine ⟨by omega, fun hu => ?_⟩
  cases hl with
  | nil => rfl
  | cons hm _ => exact absurd ⟨_, _, _, hm.move⟩ hu

theorem still_of_done (a : Fin n → α) (t : Fin n → Tape) (q : Queues n) :
    Still capacity (start (fun i => .done (a i)) t q) := by
  rintro ⟨u, i, m, hm⟩
  obtain ⟨r, q', h, -⟩ := move_eq_some_iff.mp hm
  cases m with
  | goOn => cases (Runner.move_goOn_eq_some_iff.mp h).1
  | settle k =>
    obtain ⟨_, _, _, hg, _⟩ := Runner.move_settle_eq_some_iff.mp h
    cases hg

end World

end AuthShares
