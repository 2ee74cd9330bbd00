import AuthShares.Proofs.Aggregation.Sums
import AuthShares.Proofs.Agreement.Exchanges

/-!
# The shapes of the trees

Up the tree a position finds its target by a remainder and its sources by a stride, and down the
tree it finds its parent by a division and its children by a multiplication. Whatever the parameters,
both sides mean the same edges. So a message is sent just where one is waited for, once, and
everyone but the root sends one message up the tree, the last thing it does there, and hears one down
the tree, the first thing there.
-/

set_option autoImplicit false

namespace AuthShares

open Player

variable {n : Nat}

/-- The loop that finds the rounds: from one number of positions to the next by a division that is
done in words, until none are left. -/
inductive Shrinks (fanIn : Nat) : Nat → List TreeRound → Prop
  | stop {active : Nat} (hfan : 0 < fanIn) (hlow : 2 ≤ active + fanIn)
      (hfit : active + fanIn < wordRange) (h : (active + fanIn - 2) / fanIn = 0) :
      Shrinks fanIn active []
  | round {active remaining : Nat} {rounds : List TreeRound} (hfan : 0 < fanIn)
      (hlow : 2 ≤ active + fanIn) (hfit : active + fanIn < wordRange)
      (h : (active + fanIn - 2) / fanIn = remaining) (hpos : 0 < remaining)
      (rest : Shrinks fanIn remaining rounds) : Shrinks fanIn active (⟨active, remaining⟩ :: rounds)

theorem le_one_of_no_round {fanIn active : Nat} (hfan : 2 ≤ fanIn ∨ active ≤ 1)
    (h : ¬ (0 < (active + fanIn - 2) / fanIn ∧ (active + fanIn - 2) / fanIn < active)) :
    active ≤ 1 := by
  by_contra hmany
  obtain ⟨_, -, -, hrounds⟩ :=
    treeRounds_cons (show 2 ≤ fanIn by omega) (show 2 ≤ active by omega)
  rw [treeRounds, if_neg h] at hrounds
  cases hrounds

theorem treeRounds_shrinks {fanIn active : Nat} (hpos : 0 < fanIn)
    (hfan : 2 ≤ fanIn ∨ active ≤ 1) (ha : 0 < active) (hfit : active + fanIn < wordRange) :
    Shrinks fanIn active (treeRounds fanIn active) := by
  induction active using treeRounds.induct fanIn with
  | case1 active remaining hcond ih =>
    rw [treeRounds, if_pos hcond]
    exact .round hpos (by omega) hfit rfl hcond.1 (ih (.inl (by omega)) hcond.1 (by omega))
  | case2 active remaining hcond =>
    have hone : active ≤ 1 := le_one_of_no_round hfan hcond
    rw [treeRounds, if_neg hcond]
    exact .stop hpos (by omega) hfit (Nat.div_eq_of_lt (by omega))

theorem of_mem_treeRounds {fanIn active : Nat} (hpos : 0 < fanIn) {r : TreeRound}
    (hr : r ∈ treeRounds fanIn active) : 0 < r.remaining ∧ r.remaining < r.active ∧
      r.active ≤ active ∧ r.active ≤ r.remaining * fanIn + 1 := by
  induction active using treeRounds.induct fanIn with
  | case1 active remaining hcond ih =>
    rw [treeRounds, if_pos hcond] at hr
    rcases List.mem_cons.mp hr with rfl | hr
    · have hdiv := Nat.lt_div_mul_add (a := active + fanIn - 2) hpos
      refine ⟨hcond.1, hcond.2, le_rfl, ?_⟩
      show active ≤ (active + fanIn - 2) / fanIn * fanIn + 1
      omega
    · obtain ⟨h, h', hle, hfan⟩ := ih hr
      exact ⟨h, h', by omega, hfan⟩
  | case2 active remaining hcond =>
    rw [treeRounds, if_neg hcond] at hr
    cases hr

def TreeRound.Reports (r : TreeRound) (root : Nat) (a b : Fin n) : Prop :=
  r.role ((numbered a).relative root) = .report ((numbered b).relative root)

instance (r : TreeRound) (root : Nat) : DecidableRel (r.Reports root : Fin n → Fin n → Prop) :=
  fun _ _ => inferInstanceAs (Decidable (_ = _))

def Tells (fanOut root : Nat) (a b : Fin n) : Prop :=
  (numbered b).relative root ∈ treeChildren fanOut n ((numbered a).relative root)

instance (fanOut root : Nat) : DecidableRel (Tells fanOut root : Fin n → Fin n → Prop) :=
  fun _ _ => inferInstanceAs (Decidable (_ ∈ _))

def TreeRole.sources : TreeRole → List Nat
  | .collect sources => sources
  | _ => []

def TreeRole.targets : TreeRole → List Nat
  | .report target => [target]
  | _ => []

theorem TreeRound.role_eq_report {r : TreeRound} {p target : Nat} : r.role p = .report target ↔
    r.remaining ≤ p ∧ p < r.active ∧ p % r.remaining = target := by
  by_cases hlow : p < r.remaining
  · rw [role_collect hlow]
    exact ⟨nofun, fun h => absurd h.1 (by omega)⟩
  · by_cases hhigh : p < r.active
    · rw [role_report (by omega) hhigh, TreeRole.report.injEq]
      exact ⟨fun h => ⟨by omega, hhigh, h⟩, fun h => h.2.2⟩
    · rw [role_idle (by omega) (by omega)]
      exact ⟨nofun, fun h => absurd h.2.1 hhigh⟩

theorem TreeRound.role_sources (r : TreeRound) (p : Nat) :
    (r.role p).sources = if p < r.remaining then r.sources p else [] := by
  split
  · rename_i hlow
    rw [role_collect hlow]
    rfl
  · rename_i hlow
    by_cases hhigh : p < r.active
    · rw [role_report (by omega) hhigh]
      rfl
    · rw [role_idle (by omega) (by omega)]
      rfl

/-- Both sides of a round mean the same edges. -/
theorem TreeRound.mem_role_sources {r : TreeRound} (hr : 0 < r.remaining) {p a : Nat} :
    a ∈ (r.role p).sources ↔ r.role a = .report p := by
  rw [role_eq_report, role_sources]
  split
  · rename_i hlow
    exact mem_sources hlow
  · refine ⟨nofun, fun ⟨_, _, hmod⟩ => ?_⟩
    have := Nat.mod_lt a hr
    omega

theorem TreeRound.mem_role_targets {r : TreeRound} {p b : Nat} :
    b ∈ (r.role p).targets ↔ r.role p = .report b := by
  cases hrole : r.role p with
  | report target => simp [TreeRole.targets, eq_comm]
  | _ => simp [TreeRole.targets]

theorem TreeRound.role_sources_nodup {r : TreeRound} (hr : 0 < r.remaining) (p : Nat) :
    (r.role p).sources.Nodup := by
  rw [role_sources]
  split
  · exact sources_nodup hr p
  · exact List.nodup_nil

theorem TreeRound.length_role_sources {r : TreeRound} {fanIn : Nat}
    (hfan : r.active ≤ r.remaining * fanIn + 1) (p : Nat) :
    (r.role p).sources.length ≤ fanIn := by
  rw [role_sources]
  split
  · rw [sources, List.length_map, List.length_range]
    exact Nat.div_le_of_le_mul (by omega)
  · exact Nat.zero_le _

structure Each (deed : Nat → Bytes → Deed) (peers : List Nat) (log : List Deed) : Prop where
  deeds : ∀ d ∈ log, ∃ p bs, p ∈ peers ∧ d = deed p bs
  once : ∀ p ∈ peers, ∃ bs, withPeer p log = [deed p bs]

def Talks (sources targets : List Nat) (log : List Deed) : Prop :=
  ∃ l l', log = l ++ l' ∧ Each .heard sources l ∧ Each .sent targets l'

structure Along (edge : Fin n → Fin n → Prop) [DecidableRel edge] (i : Fin n) (log : List Deed) :
    Prop where
  sent (b : Fin n) : (sentTo b log).length = if edge i b then 1 else 0
  heard (a : Fin n) : (heardFrom a log).length = if edge a i then 1 else 0
  peers : ∀ d ∈ log, d.peer < n

namespace Each

variable {deed : Nat → Bytes → Deed} {peers : List Nat} {log : List Deed}

theorem nil : Each deed [] [] := ⟨nofun, nofun⟩

theorem kind (h : Each deed peers log) : ∀ d ∈ log, ∃ p bs, d = deed p bs := fun d hd => by
  obtain ⟨p, bs, -, rfl⟩ := h.deeds d hd
  exact ⟨p, bs, rfl⟩

theorem eq_nil (h : Each deed [] log) : log = [] :=
  List.eq_nil_iff_forall_not_mem.mpr fun d hd => by
    obtain ⟨_, _, hp, -⟩ := h.deeds d hd
    cases hp

theorem eq_singleton {p : Nat} (h : Each deed [p] log) (hpeer : ∀ p bs, (deed p bs).peer = p) :
    ∃ bs, log = [deed p bs] := by
  obtain ⟨bs, hbs⟩ := h.once p (List.mem_singleton_self p)
  refine ⟨bs, hbs ▸ (List.filter_eq_self.mpr fun d hd => ?_).symm⟩
  obtain ⟨p', bs', hp', rfl⟩ := h.deeds d hd
  simpa [hpeer] using hp'

theorem sentTo_eq_nil (h : Each .heard peers log) (b : Nat) : sentTo b log = [] :=
  List.filterMap_eq_nil_iff.mpr fun d hd => by
    obtain ⟨a, bs, rfl⟩ := h.kind d hd
    rfl

theorem heardFrom_eq_nil (h : Each .sent peers log) (a : Nat) : heardFrom a log = [] :=
  List.filterMap_eq_nil_iff.mpr fun d hd => by
    obtain ⟨b, bs, rfl⟩ := h.kind d hd
    rfl

theorem withPeer_eq_nil (h : Each deed peers log) (hpeer : ∀ p bs, (deed p bs).peer = p) {p : Nat}
    (hp : p ∉ peers) : withPeer p log = [] :=
  List.filter_eq_nil_iff.mpr fun d hd => by
    obtain ⟨p', bs, hmem, rfl⟩ := h.deeds d hd
    rw [hpeer, decide_eq_true_eq]
    exact fun heq => hp (heq ▸ hmem)

theorem length_sentTo (h : Each .sent peers log) (b : Nat) :
    (sentTo b log).length = if b ∈ peers then 1 else 0 := by
  rw [← sentTo_withPeer]
  split
  · rename_i hb
    obtain ⟨bs, hbs⟩ := h.once b hb
    rw [hbs, sentTo_sent, if_pos rfl]
    rfl
  · rename_i hb
    rw [h.withPeer_eq_nil (fun _ _ => rfl) hb]
    rfl

theorem length_heardFrom (h : Each .heard peers log) (a : Nat) :
    (heardFrom a log).length = if a ∈ peers then 1 else 0 := by
  rw [← heardFrom_withPeer]
  split
  · rename_i ha
    obtain ⟨bs, hbs⟩ := h.once a ha
    rw [hbs, heardFrom_heard, if_pos rfl]
    rfl
  · rename_i ha
    rw [h.withPeer_eq_nil (fun _ _ => rfl) ha]
    rfl

end Each

theorem Talks.along {edge : Fin n → Fin n → Prop} [DecidableRel edge] {i : Fin n}
    {sources targets : List Nat} {log : List Deed} (h : Talks sources targets log)
    (hsources : ∀ a : Fin n, a.val ∈ sources ↔ edge a i) (hs : ∀ a ∈ sources, a < n)
    (htargets : ∀ b : Fin n, b.val ∈ targets ↔ edge i b) (ht : ∀ b ∈ targets, b < n) :
    Along edge i log := by
  obtain ⟨l, l', rfl, hl, hl'⟩ := h
  refine ⟨fun b => ?_, fun a => ?_, fun d hd => ?_⟩
  · rw [sentTo_append, hl.sentTo_eq_nil, List.nil_append, hl'.length_sentTo]
    exact if_congr (htargets b) rfl rfl
  · rw [heardFrom_append, hl'.heardFrom_eq_nil, List.append_nil, hl.length_heardFrom]
    exact if_congr (hsources a) rfl rfl
  · rcases List.mem_append.mp hd with hd | hd
    · obtain ⟨a, bs, ha, rfl⟩ := hl.deeds d hd
      exact hs a ha
    · obtain ⟨b, bs, hb, rfl⟩ := hl'.deeds d hd
      exact ht b hb

section

variable {t t' : Tape} {log : List Deed} {phase : String} {size : Nat}

theorem Succeeds.sends {messages : List (Nat × Bytes)} {a : Unit}
    (h : Succeeds (Link.scatter size phase messages) t log a t')
    (hnodup : (messages.map (·.1)).Nodup) : Each .sent (messages.map (·.1)) log := by
  refine ⟨fun d hd => ?_, fun b hb => ?_⟩
  · obtain ⟨g, hg⟩ := Trail.of_sending h
    obtain ⟨k, part, stage, hk, hdoes⟩ := hg.of_mem hd
    obtain ⟨message, hmem, heq⟩ := List.mem_map.mp (List.mem_of_getElem? hk)
    cases heq
    cases hdoes
    exact ⟨_, _, List.mem_map_of_mem hmem, rfl⟩
  · obtain ⟨⟨_, bs⟩, hmem, rfl⟩ := List.mem_map.mp hb
    obtain ⟨k, hk⟩ := List.getElem?_of_mem hmem
    exact ⟨bs, (h.of_scatter hnodup).2 k _ bs hk⟩

theorem Succeeds.hears {sources : List Nat} {messages : List Bytes}
    (h : Succeeds (Link.gatherBytes phase sources) t log messages t') (hnodup : sources.Nodup) :
    Each .heard sources log := by
  refine ⟨fun d hd => ?_, fun a ha => ?_⟩
  · obtain ⟨g, hg⟩ := Trail.of_waiting h
    obtain ⟨k, part, stage, hk, hdoes⟩ := hg.of_mem hd
    obtain ⟨source, hmem, heq⟩ := List.mem_map.mp (List.mem_of_getElem? hk)
    cases heq
    cases hdoes
    exact ⟨_, _, hmem, rfl⟩
  · obtain ⟨k, hk⟩ := List.getElem?_of_mem ha
    obtain ⟨bs, -, hlog, -⟩ := (Succeeds.of_gather h hnodup).2.2 k a hk
    exact ⟨bs, hlog⟩

end

def TreeRound.Done (root : Nat) (i : Fin n) (r : TreeRound) (log : List Deed) : Prop :=
  Talks ((r.role ((numbered i).relative root)).sources.map ((numbered i).absolute root))
    ((r.role ((numbered i).relative root)).targets.map ((numbered i).absolute root)) log

/-- A party carries out an action by itself and succeeds, whatever comes from others. -/
def Performed {σ α : Type} (m : Action σ α) (s : σ) (log : List Deed) (a : α) (s' : σ) : Prop :=
  ∃ t t', Trail (.start (m.run.run s) t) log (.start (.done (.ok a, s')) t')

namespace Performed

variable {σ α β : Type} {s s' : σ} {log : List Deed}

theorem of_done {m : Action σ α} {a : α} {x : Except Error α × σ} (hm : m.run.run s = .done x)
    (h : Performed m s log a s') : log = [] := by
  obtain ⟨t, t', h⟩ := h
  rw [hm] at h
  exact h.of_done.1

theorem of_readResult {r : Except ReadError α} {a : α}
    (h : Performed (Action.ofReadResult r) s log a s') : log = [] := by
  cases r <;> exact h.of_done rfl

theorem of_bind {m : Action σ α} {f : α → Action σ β} {b : β}
    (h : Performed (m >>= f) s log b s') : ∃ a l l' u, log = l ++ l' ∧
      Performed m s l a u ∧ Performed (f a) u l' b s' := by
  obtain ⟨t, t', h⟩ := h
  obtain ⟨⟨r, u⟩, l, l', t₁, rfl, hm, hf⟩ := Trail.of_bind (p := m.run.run s) h
  cases r with
  | ok a => exact ⟨a, l, l', u, rfl, ⟨t, t₁, hm⟩, ⟨t₁, t', hf⟩⟩
  | error e =>
    obtain ⟨-, heq⟩ := hf.of_done
    cases heq

theorem of_link {m : Link α} {a : α} (h : Performed (liftM m : Action σ α) s log a s') :
    ∃ t t', Succeeds m t log a t' := by
  obtain ⟨t, t', h⟩ := h
  rw [← bind_pure (liftM m : Action σ α), Action.run_link] at h
  obtain ⟨r, l, l', u, rfl, hm, hf⟩ := h.of_bind
  cases r with
  | ok b =>
    obtain ⟨rfl, heq⟩ := hf.of_done
    cases heq
    exact ⟨t, t', by rwa [List.append_nil]⟩
  | error e =>
    obtain ⟨-, heq⟩ := hf.of_done
    cases heq

end Performed

namespace Summation

variable {T : Type} [Element T] {lengths : List (Option Nat)} {s s' : Summation T}
  {log : List Deed}

theorem absorbAll_silent {combine : Combine} {message : Bytes} {a : Unit}
    (h : Performed (absorbAll combine lengths message) s log a s') : log = [] := by
  let absorbed := Message.absorbRange combine lengths 0 s.values.length s.values message
  have hread : Performed (Action.ofReadResult absorbed.1) { s with values := absorbed.2 } log a s' :=
    h
  exact hread.of_readResult

theorem absorbEach_silent {combine : Combine} {messages : List Bytes} {a : Unit}
    (h : Performed (absorbEach combine lengths messages) s log a s') : log = [] := by
  induction messages generalizing s log with
  | nil => exact h.of_done rfl
  | cons message rest ih =>
    obtain ⟨_, l, l', u, rfl, hfirst, hrest⟩ := h.of_bind
    rw [absorbAll_silent hfirst, ih hrest]
    rfl

variable {root fanOut : Nat} {i : Fin n}

theorem reduceRound_done {r : TreeRound} {a : Unit}
    (hnodup : ((r.role ((numbered i).relative root)).sources.map
      ((numbered i).absolute root)).Nodup)
    (h : Performed (reduceRound (numbered i) root lengths r) s log a s') : r.Done root i log := by
  rw [reduceRound] at h
  rw [TreeRound.Done]
  cases hrole : r.role ((numbered i).relative root) with
  | collect sources =>
    rw [hrole] at h hnodup
    obtain ⟨messages, l, l', u, rfl, hlink, habsorb⟩ := Performed.of_bind h
    obtain ⟨t, t', hgather⟩ := hlink.of_link
    exact ⟨l, l', rfl, hgather.hears hnodup, absorbEach_silent habsorb ▸ Each.nil⟩
  | report target =>
    rw [hrole] at h
    obtain ⟨message, l, l', u, rfl, hpack, hlink⟩ := Performed.of_bind h
    obtain ⟨t, t', hsend⟩ := hlink.of_link
    exact ⟨l, l', rfl, hpack.of_done (run_packAll lengths s) ▸ Each.nil,
      Succeeds.sends hsend (List.nodup_singleton _)⟩
  | idle =>
    rw [hrole] at h
    obtain rfl := h.of_done rfl
    exact ⟨[], [], rfl, Each.nil, Each.nil⟩

theorem reduceUp_done {rounds : List TreeRound} {a : Unit}
    (hnodup : ∀ r ∈ rounds, ((r.role ((numbered i).relative root)).sources.map
      ((numbered i).absolute root)).Nodup)
    (h : Performed (reduceUp (numbered i) root lengths rounds) s log a s') :
    ∃ logs : List (List Deed),
      log = logs.flatten ∧ List.Forall₂ (TreeRound.Done root i) rounds logs := by
  induction rounds generalizing s log with
  | nil =>
    obtain rfl := h.of_done rfl
    exact ⟨[], rfl, .nil⟩
  | cons r rest ih =>
    obtain ⟨hr, hrest⟩ := List.forall_mem_cons.mp hnodup
    obtain ⟨_, l, l', u, rfl, hround, hrounds⟩ := Performed.of_bind h
    obtain ⟨logs, rfl, hlogs⟩ := ih hrest hrounds
    exact ⟨l :: logs, rfl, .cons (reduceRound_done hr hround) hlogs⟩

theorem hearDown_hears {message : Bytes}
    (h : Performed (hearDown (numbered i) root fanOut lengths) s log message s') :
    Each .heard (if (numbered i).relative root = 0 then []
      else [(numbered i).absolute root (treeParent fanOut ((numbered i).relative root))]) log := by
  rw [hearDown] at h
  split at h
  · rename_i hroot
    rw [if_pos hroot, h.of_done (run_packAll lengths s)]
    exact Each.nil
  · rename_i hother
    rw [if_neg hother]
    obtain ⟨_, l, l', u, rfl, hlink, hrest⟩ := h.of_bind
    obtain ⟨_, k, k', u', rfl, habsorb, hpure⟩ := hrest.of_bind
    obtain ⟨t, t', hreceive⟩ := hlink.of_link
    obtain ⟨messages, j, j', v, rfl, hgather, hdone⟩ := hreceive.of_bind
    obtain ⟨rfl, -⟩ := hdone.of_pure
    rw [absorbAll_silent habsorb, hpure.of_done rfl, List.append_nil, List.append_nil,
      List.append_nil]
    exact hgather.hears (List.nodup_singleton _)

theorem tellDown_talks {a : Unit}
    (hnodup : ((treeChildren fanOut n ((numbered i).relative root)).map
      ((numbered i).absolute root)).Nodup)
    (h : Performed (tellDown (numbered i) root fanOut lengths) s log a s') :
    Talks (if (numbered i).relative root = 0 then []
        else [(numbered i).absolute root (treeParent fanOut ((numbered i).relative root))])
      ((treeChildren fanOut n ((numbered i).relative root)).map ((numbered i).absolute root))
      log := by
  obtain ⟨message, l, l', u, rfl, hhear, hlink⟩ := Performed.of_bind h
  obtain ⟨t, t', hscatter⟩ := hlink.of_link
  have htargets : ∀ cs : List Nat, (cs.map fun child => (child, message)).map (·.1) = cs :=
    fun cs => List.map_map.trans (List.map_id cs)
  have hsends := hscatter.sends ((congrArg List.Nodup (htargets _)).mpr hnodup)
  rw [htargets] at hsends
  exact ⟨l, l', rfl, hearDown_hears hhear, hsends⟩

end Summation

/-- What a player has done when it has done with all rounds: the root has just heard messages, and
everybody else has sent one, after all that it heard, to a player of smaller relative number. -/
structure Climb (root : Nat) (rounds : List TreeRound) (i : Fin n) (log : List Deed) : Prop where
  inRounds : ∃ logs : List (List Deed), log = logs.flatten ∧
    List.Forall₂ (fun r l => Along (r.Reports root) i l) rounds logs
  ofRoot : i.val = root → ∀ d ∈ log, ∃ a bs, d = .heard a bs
  ofOthers : i.val ≠ root → ∃ (heard : List Deed) (b : Fin n) (bs : Bytes),
    log = heard ++ [.sent b bs] ∧ (∀ d ∈ heard, ∃ a bs, d = .heard a bs) ∧
      (numbered b).relative root < (numbered i).relative root

theorem forall_mem_flatten {rounds : List TreeRound} {logs : List (List Deed)}
    {R : TreeRound → List Deed → Prop} {P : Deed → Prop} (h : List.Forall₂ R rounds logs)
    (hP : ∀ r ∈ rounds, ∀ l, R r l → ∀ d ∈ l, P d) : ∀ d ∈ logs.flatten, P d := by
  induction h with
  | nil => nofun
  | cons hr _ ih =>
    intro d hd
    rcases List.mem_append.mp hd with hd | hd
    · exact hP _ (by simp) _ hr d hd
    · exact ih (fun r hmem => hP r (by simp [hmem])) d hd

section

variable {root fanIn active : Nat} {i : Fin n} {r : TreeRound} {log : List Deed}
  {logs : List (List Deed)}

theorem TreeRound.Done.along (h : r.Done root i log) (hroot : root < n) (hn : 2 * n < wordRange)
    (hr : 0 < r.remaining) (hle : r.active ≤ n) : Along (r.Reports root) i log := by
  have hsources : ∀ p ∈ (r.role ((numbered i).relative root)).sources, p < n := fun p hp =>
    (role_eq_report.mp ((mem_role_sources hr).mp hp)).2.1.trans_le hle
  have htargets : ∀ p ∈ (r.role ((numbered i).relative root)).targets, p < n := fun p hp => by
    obtain ⟨hlow, hhigh, rfl⟩ := role_eq_report.mp (mem_role_targets.mp hp)
    exact (Nat.mod_lt _ hr).trans_le (by omega)
  have hlt : ∀ ps : List Nat, ∀ p ∈ ps.map ((numbered i).absolute root), p < n := fun ps p hp => by
    obtain ⟨q, -, rfl⟩ := List.mem_map.mp hp
    exact (place hroot q).isLt
  refine Talks.along h (fun a => ?_) (hlt _) (fun b => ?_) (hlt _)
  · rw [Summation.mem_map_absolute hroot hn i a hsources, mem_role_sources hr]
    rfl
  · rw [Summation.mem_map_absolute hroot hn i b htargets, mem_role_targets]
    rfl

theorem TreeRound.Done.heard (h : r.Done root i log)
    (hi : (numbered i).relative root < r.remaining) : ∀ d ∈ log, ∃ a bs, d = .heard a bs := by
  rw [Done, role_collect hi] at h
  obtain ⟨l, l', rfl, hl, hl'⟩ := h
  rw [hl'.eq_nil, List.append_nil]
  exact hl.kind

theorem TreeRound.Done.sent (h : r.Done root i log)
    (hlow : r.remaining ≤ (numbered i).relative root)
    (hhigh : (numbered i).relative root < r.active) :
    ∃ bs, log = [.sent ((numbered i).absolute root ((numbered i).relative root % r.remaining))
      bs] := by
  rw [Done, role_report hlow hhigh] at h
  obtain ⟨l, l', rfl, hl, hl'⟩ := h
  rw [hl.eq_nil]
  exact hl'.eq_singleton fun _ _ => rfl

theorem TreeRound.Done.eq_nil (h : r.Done root i log)
    (hlow : r.remaining ≤ (numbered i).relative root)
    (hhigh : r.active ≤ (numbered i).relative root) : log = [] := by
  rw [Done, role_idle hlow hhigh] at h
  obtain ⟨l, l', rfl, hl, hl'⟩ := h
  rw [hl.eq_nil, hl'.eq_nil]
  rfl

/-- A player sends in the round that is its last one, and has just heard messages before. -/
theorem report_last (hpos : 0 < fanIn) (hfan : 2 ≤ fanIn ∨ active ≤ 1)
    (h : List.Forall₂ (TreeRound.Done root i) (treeRounds fanIn active) logs)
    (hother : 0 < (numbered i).relative root) (hlt : (numbered i).relative root < active) :
    ∃ (heard : List Deed) (target : Nat) (bs : Bytes),
      logs.flatten = heard ++ [.sent ((numbered i).absolute root target) bs] ∧
      (∀ d ∈ heard, ∃ a bs, d = .heard a bs) ∧ target < (numbered i).relative root := by
  induction active using Nat.strong_induction_on generalizing logs with
  | _ active ih =>
    by_cases hcond : 0 < (active + fanIn - 2) / fanIn ∧ (active + fanIn - 2) / fanIn < active
    · rw [treeRounds, if_pos hcond] at h
      rcases h with _ | ⟨hfirst, hrest⟩
      rename_i log logs
      by_cases hlow : (numbered i).relative root < (active + fanIn - 2) / fanIn
      · obtain ⟨heard, target, bs, hlogs, hheard, htarget⟩ :=
          ih _ hcond.2 (.inl (by omega)) hrest hlow
        refine ⟨log ++ heard, target, bs, ?_, fun d hd => ?_, htarget⟩
        · rw [List.flatten_cons, hlogs, List.append_assoc]
        · exact (List.mem_append.mp hd).elim (hfirst.heard hlow d) (hheard d)
      · obtain ⟨bs, rfl⟩ := hfirst.sent (Nat.not_lt.mp hlow) hlt
        -- In the rounds behind it the player is no longer active.
        have hidle : logs.flatten = [] :=
          List.eq_nil_iff_forall_not_mem.mpr <| forall_mem_flatten hrest fun r hr l hl d hd => by
            obtain ⟨-, hra, hle, -⟩ := of_mem_treeRounds hpos hr
            rw [hl.eq_nil (by omega) (by omega)] at hd
            cases hd
        refine ⟨[], (numbered i).relative root % ((active + fanIn - 2) / fanIn), bs, ?_,
          List.forall_mem_nil _, ?_⟩
        · rw [List.flatten_cons, hidle]
          rfl
        · exact (Nat.mod_lt _ hcond.1).trans_le (Nat.not_lt.mp hlow)
    · have := le_one_of_no_round hfan hcond
      omega

end

/-- What a player has done when the sum has been told down the tree: everybody but the root has heard
one message, from its parent, before all that it sent. -/
structure Descent (root fanOut : Nat) (i : Fin n) (log : List Deed) : Prop where
  along : Along (Tells fanOut root) i log
  ofRoot : i.val = root → ∀ d ∈ log, ∃ b bs, d = .sent b bs
  ofOthers : i.val ≠ root → ∃ (a : Fin n) (bs : Bytes) (sent : List Deed),
    log = .heard a bs :: sent ∧ (∀ d ∈ sent, ∃ b bs, d = .sent b bs) ∧
      (numbered a).relative root = treeParent fanOut ((numbered i).relative root) ∧
      (numbered a).relative root < (numbered i).relative root ∧ Tells fanOut root a i

/-- The children of a position, where products and sums that are no words become the largest word. -/
def saturatedChildren (fanOut players position : Nat) : List Nat :=
  let first := min (position * fanOut) (wordRange - 1)
  let stop := min (min (first + fanOut) (wordRange - 1)) players
  (List.range' first (stop - first)).filter (· != position)

theorem saturatedChildren_eq {players : Nat} (hplayers : players < wordRange)
    (fanOut position : Nat) :
    saturatedChildren fanOut players position = treeChildren fanOut players position := by
  rw [saturatedChildren, treeChildren, treeSpan]
  congr 1
  by_cases hword : position * fanOut < wordRange
  · have hfirst : min (position * fanOut) (wordRange - 1) = position * fanOut := by omega
    rw [hfirst]
    congr 1
    omega
  · have hnone : min (position * fanOut + fanOut) players - position * fanOut = 0 := by omega
    have hnone' : min (min (min (position * fanOut) (wordRange - 1) + fanOut) (wordRange - 1)) players -
        min (position * fanOut) (wordRange - 1) = 0 := by omega
    rw [hnone, hnone']
    rfl

section

variable {root fanIn fanOut : Nat} (hroot : root < n) (hn : 2 * n < wordRange)
include hroot hn

theorem relative_eq_zero_iff (i : Fin n) : (numbered i).relative root = 0 ↔ i.val = root := by
  have hi := i.isLt
  rw [relative_numbered hroot hn]
  split <;> omega

theorem card_le_length {P : Fin n → Prop} [DecidablePred P] {positions : List Nat}
    (h : ∀ a, P a → (numbered a).relative root ∈ positions) :
    (Finset.univ.filter P).card ≤ positions.length := by
  have hinj : Function.Injective fun a : Fin n => (numbered a).relative root :=
    Function.LeftInverse.injective (place_relative hroot hn)
  calc (Finset.univ.filter P).card
      = ((Finset.univ.filter P).image fun a => (numbered a).relative root).card :=
        (Finset.card_image_of_injective _ hinj).symm
    _ ≤ positions.toFinset.card := Finset.card_le_card fun p hp => by
        obtain ⟨a, ha, rfl⟩ := Finset.mem_image.mp hp
        exact List.mem_toFinset.mpr (h a (Finset.mem_filter.mp ha).2)
    _ ≤ positions.length := List.toFinset_card_le positions

theorem role_sources_players_nodup {r : TreeRound} (hr : 0 < r.remaining) (hle : r.active ≤ n)
    (i : Fin n) : ((r.role ((numbered i).relative root)).sources.map
      ((numbered i).absolute root)).Nodup :=
  Summation.map_absolute_nodup hroot hn i
    (fun _ hp => (TreeRound.role_eq_report.mp ((TreeRound.mem_role_sources hr).mp hp)).2.1.trans_le
      hle) (TreeRound.role_sources_nodup hr _)

theorem reports_card_le (hpos : 0 < fanIn) {r : TreeRound} (hr : r ∈ treeRounds fanIn n)
    (b : Fin n) : (Finset.univ.filter fun a => r.Reports root a b).card ≤ fanIn := by
  obtain ⟨hrem, -, -, hwidth⟩ := of_mem_treeRounds hpos hr
  exact (card_le_length hroot hn fun a ha => (TreeRound.mem_role_sources hrem).mpr ha).trans
    (TreeRound.length_role_sources hwidth _)

theorem climb_of_done (hpos : 0 < fanIn) (hfan : 2 ≤ fanIn ∨ n ≤ 1) {i : Fin n}
    {logs : List (List Deed)}
    (h : List.Forall₂ (TreeRound.Done root i) (treeRounds fanIn n) logs) :
    Climb root (treeRounds fanIn n) i logs.flatten := by
  refine ⟨⟨logs, rfl, ?_⟩, fun hi => ?_, fun hi => ?_⟩
  · obtain ⟨hlen, hdone⟩ := List.forall₂_iff_zip.mp h
    refine List.forall₂_iff_zip.mpr ⟨hlen, fun {r l} hmem => ?_⟩
    obtain ⟨hrem, -, hle, -⟩ := of_mem_treeRounds hpos (List.of_mem_zip hmem).1
    exact (hdone hmem).along hroot hn hrem hle
  · have hzero := (relative_eq_zero_iff hroot hn i).mpr hi
    exact forall_mem_flatten h fun r hr l hl => hl.heard (hzero ▸ (of_mem_treeRounds hpos hr).1)
  · have hother := Nat.pos_of_ne_zero (mt (relative_eq_zero_iff hroot hn i).mp hi)
    have hin := relative_lt hroot hn i
    obtain ⟨heard, target, bs, hlogs, hheard, htarget⟩ := report_last hpos hfan h hother hin
    refine ⟨heard, place hroot target, bs, hlogs, hheard, ?_⟩
    rwa [relative_place hroot hn (htarget.trans hin)]

theorem tells_iff (hfan : 0 < fanOut) (htwo : 1 < n → 2 ≤ fanOut) (a b : Fin n) :
    Tells fanOut root a b ↔ 0 < (numbered b).relative root ∧
      treeParent fanOut ((numbered b).relative root) = (numbered a).relative root := by
  rw [← Summation.mem_children_iff hroot hn hfan htwo,
    Summation.mem_map_absolute hroot hn a b fun c hc => ((mem_treeChildren hfan).mp hc).1]
  rfl

theorem mem_parent_iff (hfan : 0 < fanOut) (htwo : 1 < n → 2 ≤ fanOut) (a b : Fin n) :
    (a.val ∈ if (numbered b).relative root = 0 then []
      else [(numbered b).absolute root (treeParent fanOut ((numbered b).relative root))]) ↔
        Tells fanOut root a b := by
  rw [tells_iff hroot hn hfan htwo]
  split
  · rename_i hb
    exact ⟨nofun, fun ⟨hpos, _⟩ => absurd hb hpos.ne'⟩
  · rename_i hb
    have hparent : treeParent fanOut ((numbered b).relative root) < n :=
      (Nat.div_le_self _ _).trans_lt (relative_lt hroot hn b)
    rw [List.mem_singleton, absolute_eq_place hroot, Fin.val_inj]
    constructor
    · rintro rfl
      exact ⟨Nat.pos_of_ne_zero hb, (relative_place hroot hn hparent).symm⟩
    · rintro ⟨-, hp⟩
      rw [hp, place_relative hroot hn]

theorem tells_card_le (a : Fin n) : (Finset.univ.filter fun b => Tells fanOut root a b).card ≤
    fanOut := by
  refine (card_le_length hroot hn fun b hb => hb).trans ((List.length_filter_le _ _).trans ?_)
  rw [List.length_range', treeSpan]
  omega

theorem descent_of_talks (hfan : 0 < fanOut) (htwo : 1 < n → 2 ≤ fanOut) {i : Fin n}
    {log : List Deed} (h : Talks (if (numbered i).relative root = 0 then []
        else [(numbered i).absolute root (treeParent fanOut ((numbered i).relative root))])
      ((treeChildren fanOut n ((numbered i).relative root)).map ((numbered i).absolute root)) log) :
    Descent root fanOut i log := by
  have hin := relative_lt hroot hn i
  have hparent : treeParent fanOut ((numbered i).relative root) < n :=
    (Nat.div_le_self _ _).trans_lt hin
  refine ⟨?_, fun hi => ?_, fun hi => ?_⟩
  · refine h.along (fun a => mem_parent_iff hroot hn hfan htwo a i) (fun a ha => ?_) (fun b => ?_)
      fun b hb => ((Summation.children_others hroot hn hfan i).2 b hb).1
    · split at ha
      · cases ha
      · exact List.mem_singleton.mp ha ▸ (place hroot _).isLt
    · rw [Summation.mem_map_absolute hroot hn i b fun c hc => ((mem_treeChildren hfan).mp hc).1]
      rfl
  · rw [if_pos ((relative_eq_zero_iff hroot hn i).mpr hi)] at h
    obtain ⟨l, l', rfl, hl, hl'⟩ := h
    rw [hl.eq_nil]
    exact hl'.kind
  · have hother := mt (relative_eq_zero_iff hroot hn i).mp hi
    rw [if_neg hother] at h
    obtain ⟨l, l', rfl, hl, hl'⟩ := h
    obtain ⟨bs, rfl⟩ := hl.eq_singleton fun _ _ => rfl
    have hpos := Nat.pos_of_ne_zero hother
    have hrel := relative_place hroot hn hparent
    refine ⟨place hroot _, bs, l', rfl, hl'.kind, hrel, ?_, ?_⟩
    · exact hrel.trans_lt (treeParent_lt (htwo (by omega)) hpos)
    · exact (tells_iff hroot hn hfan htwo _ i).mpr ⟨hpos, hrel.symm⟩

end

/-- What holds of the way up a tree of `n` players: the loop ends with just these rounds, in none of
them a player hears from too many others, and everyone who passes them does as it should. -/
structure Climbs (n root fanIn : Nat) : Prop where
  rounds : Shrinks fanIn n (treeRounds fanIn n)
  width : ∀ r ∈ treeRounds fanIn n, ∀ b : Fin n,
    (Finset.univ.filter fun a => r.Reports root a b).card ≤ fanIn
  climb {T : Type} [Element T] {lengths : List (Option Nat)} {s s' : Summation T} {i : Fin n}
    {log : List Deed} : Performed (Summation.reduceUp (numbered i) root lengths
      (treeRounds fanIn n)) s log () s' → Climb root (treeRounds fanIn n) i log

theorem climbs {root fanIn : Nat} (hroot : root < n) (hn : 2 * n < wordRange) (hpos : 0 < fanIn)
    (hle : fanIn ≤ n) (hfan : 2 ≤ fanIn ∨ n ≤ 1) : Climbs n root fanIn where
  rounds := treeRounds_shrinks hpos hfan (by omega) (by omega)
  width _ hr b := reports_card_le hroot hn hpos hr b
  climb h := by
    obtain ⟨logs, rfl, hlogs⟩ := Summation.reduceUp_done (fun r hr => by
      obtain ⟨hrem, -, hle, -⟩ := of_mem_treeRounds hpos hr
      exact role_sources_players_nodup hroot hn hrem hle _) h
    exact climb_of_done hroot hn hpos hfan hlogs

structure Descends (n root fanOut : Nat) : Prop where
  children : ∀ p, saturatedChildren fanOut n p = treeChildren fanOut n p
  others : ∀ a : Fin n, ¬ Tells fanOut root a a
  width : ∀ a : Fin n, (Finset.univ.filter fun b => Tells fanOut root a b).card ≤ fanOut
  descent {T : Type} [Element T] {lengths : List (Option Nat)} {s s' : Summation T} {i : Fin n}
    {log : List Deed} : Performed (Summation.tellDown (numbered i) root fanOut lengths) s log () s' →
      Descent root fanOut i log

theorem descends {root fanOut : Nat} (hroot : root < n) (hn : 2 * n < wordRange)
    (hfan : 0 < fanOut) (htwo : 1 < n → 2 ≤ fanOut) : Descends n root fanOut where
  children p := saturatedChildren_eq (by omega) fanOut p
  others a h := ((mem_treeChildren hfan).mp h).2.2 rfl
  width a := tells_card_le hroot hn a
  descent {_ _ _ _ _ i _} h := descent_of_talks hroot hn hfan htwo
    (Summation.tellDown_talks (Summation.children_others hroot hn hfan i).1 h)

/-- Whatever the parameters, the trees are in shape, and players whose values can be sent come to the
end of both. -/
theorem tree_shapes (hpos : 0 < n) (hn : n < 2 ^ 62) (a : Aggregator) :
    Climbs n (a.root % n) (min (effectiveFan a.fanIn n) n) ∧
    Descends n (a.root % n) (effectiveFan a.fanOut n) ∧
    ∀ {T : Type} [MacElement T] [Modular T] {lengths : List (Option Nat)} {q : Nat → Nat} {m : Nat}
      {x : Fin n → List T}, Faithful T lengths q m x → ∀ s : Fin n → Summation T,
        (∀ i, Shows q m x (s i).values fun _ => {i}) → ∀ capacity, capacity ≠ some 0 → ∀ t,
          ∃ s', Accord capacity (fun i => do
            Summation.reduceUp (numbered i) (a.root % n) lengths
              (treeRounds (min (effectiveFan a.fanIn n) n) n)
            Summation.tellDown (numbered i) (a.root % n) (effectiveFan a.fanOut n) lengths)
              s t (fun _ => ()) s' t := by
  have hroot : a.root % n < n := Nat.mod_lt _ hpos
  have hwords : 2 * n < wordRange := by
    unfold wordRange
    omega
  have hin := Aggregator.effectiveFan_pos a.fanIn hpos
  refine ⟨climbs hroot hwords (by omega) (Nat.min_le_right _ _) ?_,
    descends hroot hwords (Aggregator.effectiveFan_pos a.fanOut hpos)
      (Aggregator.two_le_effectiveFan a.fanOut), fun f s hs capacity hcap t => ?_⟩
  · by_cases hone : n ≤ 1
    · exact .inr hone
    · have := Aggregator.two_le_effectiveFan a.fanIn (n := n) (by omega)
      exact .inl (by omega)
  · obtain ⟨s', hs', -⟩ := Aggregator.tree_accord hcap hpos hwords a f hs t
    exact ⟨s', hs'⟩

/-- Five players, counted from the third, with a fan-in and a fan-out of two. -/
theorem tree_shapes_five : 0 < 5 ∧ 5 < 2 ^ 62 ∧ Climbs 5 2 2 ∧ Descends 5 2 2 := by
  obtain ⟨hclimbs, hdescends, -⟩ := tree_shapes (n := 5) (by decide) (by decide) ⟨2, 2, 7, []⟩
  exact ⟨by decide, by decide, hclimbs, hdescends⟩

end AuthShares
