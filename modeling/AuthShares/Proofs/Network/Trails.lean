import AuthShares.Proofs.Network.Accord

/-!
# What one party has done

A party sends messages and takes messages in; the rest of what it does nobody can see. A
trail is a run of one party by itself, with all that it has done: whatever comes from
others is left open, and a part of an action may fail at any time. What a party has done
by the end of a program splits into what it did for each part of the program.
-/

set_option autoImplicit false

namespace AuthShares

variable {α β : Type}

inductive Deed where
  | sent (target : Nat) (bs : Bytes)
  | heard (source : Nat) (bs : Bytes)
  deriving DecidableEq

namespace Deed

def peer : Deed → Nat
  | sent target _ => target
  | heard source _ => source

def sentTo? (b : Nat) : Deed → Option Bytes
  | sent target bs => if target = b then some bs else none
  | heard _ _ => none

def heardFrom? (a : Nat) : Deed → Option Bytes
  | sent _ _ => none
  | heard source bs => if source = a then some bs else none

end Deed

def sentTo (b : Nat) (log : List Deed) : List Bytes := log.filterMap (Deed.sentTo? b)

def heardFrom (a : Nat) (log : List Deed) : List Bytes := log.filterMap (Deed.heardFrom? a)

section

variable (a b : Nat) (bs : Bytes) (log : List Deed)

@[simp] theorem sentTo_nil : sentTo b [] = [] := rfl

@[simp] theorem heardFrom_nil : heardFrom a [] = [] := rfl

@[simp] theorem sentTo_sent (target : Nat) :
    sentTo b (.sent target bs :: log) =
      if target = b then bs :: sentTo b log else sentTo b log := by
  by_cases h : target = b <;> simp [sentTo, Deed.sentTo?, h]

@[simp] theorem sentTo_heard (source : Nat) :
    sentTo b (.heard source bs :: log) = sentTo b log := rfl

@[simp] theorem heardFrom_heard (source : Nat) :
    heardFrom a (.heard source bs :: log) =
      if source = a then bs :: heardFrom a log else heardFrom a log := by
  by_cases h : source = a <;> simp [heardFrom, Deed.heardFrom?, h]

@[simp] theorem heardFrom_sent (target : Nat) :
    heardFrom a (.sent target bs :: log) = heardFrom a log := rfl

end

@[simp] theorem sentTo_append (b : Nat) (l l' : List Deed) :
    sentTo b (l ++ l') = sentTo b l ++ sentTo b l' := List.filterMap_append

@[simp] theorem heardFrom_append (a : Nat) (l l' : List Deed) :
    heardFrom a (l ++ l') = heardFrom a l ++ heardFrom a l' := List.filterMap_append

def withPeer (b : Nat) (log : List Deed) : List Deed := log.filter fun d => d.peer = b

theorem withPeer_append (b : Nat) (l l' : List Deed) :
    withPeer b (l ++ l') = withPeer b l ++ withPeer b l' := List.filter_append ..

theorem sentTo_withPeer (b : Nat) (log : List Deed) : sentTo b (withPeer b log) = sentTo b log := by
  rw [sentTo, withPeer, List.filterMap_filter]
  congr 1
  funext d
  cases d with
  | sent target bs => by_cases h : target = b <;> simp [Deed.peer, Deed.sentTo?, h]
  | heard source bs => by_cases h : source = b <;> simp [Deed.peer, Deed.sentTo?, h]

theorem heardFrom_withPeer (a : Nat) (log : List Deed) :
    heardFrom a (withPeer a log) = heardFrom a log := by
  rw [heardFrom, withPeer, List.filterMap_filter]
  congr 1
  funext d
  cases d with
  | sent target bs => by_cases h : target = a <;> simp [Deed.peer, Deed.heardFrom?, h]
  | heard source bs => by_cases h : source = a <;> simp [Deed.peer, Deed.heardFrom?, h]

inductive Part.Does (accept : Bytes → Except ChannelError Unit) : Part → Deed → Stage → Prop
  | sent (target : Nat) (bs : Bytes) :
    Does accept (.outgoing target bs) (.sent target bs) (.done [])
  | heard (source : Nat) (bs : Bytes) :
    Does accept (.incoming source) (.heard source bs) (.ofMessage accept bs)

theorem Part.Does.peer_eq {accept : Bytes → Except ChannelError Unit} {part : Part} {d : Deed}
    {stage : Stage} (h : part.Does accept d stage) : d.peer = part.peer := by
  cases h <;> rfl

theorem Part.Does.settled {accept : Bytes → Except ChannelError Unit} {part : Part} {d : Deed}
    {stage : Stage} (h : part.Does accept d stage) : stage ≠ .fresh := by
  cases h with
  | sent target bs => simp
  | heard source bs =>
    unfold Stage.ofMessage
    split <;> simp

namespace Group

/-- A fresh part is settled, or fails for whatever reason. -/
inductive Turn (accept : Bytes → Except ChannelError Unit) (g : Group) : List Deed → Group → Prop
  | settled {k : Nat} {part : Part} {d : Deed} {stage : Stage} (h : g[k]? = some (part, .fresh))
      (hd : part.Does accept d stage) : Turn accept g [d] (g.set k (part, stage))
  | failed {k : Nat} {part : Part} (e : ChannelError) (h : g[k]? = some (part, .fresh)) :
      Turn accept g [] (g.set k (part, .failed e))

inductive Turns (accept : Bytes → Except ChannelError Unit) : Group → List Deed → Group → Prop
  | nil (g : Group) : Turns accept g [] g
  | cons {g g' g'' : Group} {ds log : List Deed} (h : Turn accept g ds g')
      (ht : Turns accept g' log g'') : Turns accept g (ds ++ log) g''

def Over (b : Nat) (g : Group) : Prop :=
  ∀ (k : Nat) (part : Part), g[k]? = some (part, .fresh) → part.peer ≠ b

variable {accept : Bytes → Except ChannelError Unit} {g g' : Group} {ds log : List Deed}
  {k : Nat} {part : Part} {stage : Stage}

theorem get_of_set {l : Nat} {part' : Part} (hs : stage ≠ .fresh)
    (h : (List.set g k (part, stage))[l]? = some (part', .fresh)) :
    k ≠ l ∧ g[l]? = some (part', .fresh) := by
  have hkl : k ≠ l := by
    rintro rfl
    rw [List.getElem?_set] at h
    simp [hs] at h
  exact ⟨hkl, by rwa [List.getElem?_set_ne hkl] at h⟩

theorem peer_ne (hg : g.peers.Nodup) {l : Nat} {part' : Part} {x y : Stage} (hkl : k ≠ l)
    (hk : g[k]? = some (part, x)) (hl : g[l]? = some (part', y)) : part'.peer ≠ part.peer := by
  intro hpeer
  have hk' : g.peers[k]? = some part.peer := by simp [peers, hk]
  have hl' : g.peers[l]? = some part.peer := by simp [peers, hl, hpeer]
  obtain ⟨hlt, _⟩ := List.getElem?_eq_some_iff.mp hk'
  exact hkl ((List.getElem?_inj hlt hg).mp (hk'.trans hl'.symm))

theorem Over.set {b : Nat} (h : Over b g) (hs : stage ≠ .fresh) :
    Over b (List.set g k (part, stage)) :=
  fun l part' hl => h l part' (get_of_set hs hl).2

theorem over_set (hg : g.peers.Nodup) (hk : g[k]? = some (part, .fresh)) (hs : stage ≠ .fresh) :
    Over part.peer (List.set g k (part, stage)) := by
  intro l part' hl
  obtain ⟨hkl, hl'⟩ := get_of_set hs hl
  exact peer_ne hg hkl hk hl'

theorem Turn.peers (h : Turn accept g ds g') : g'.peers = g.peers := by
  cases h with
  | settled h hd => exact peers_set h _
  | failed e h => exact peers_set h _

theorem Turns.length_eq (h : Turns accept g log g') : g'.length = g.length := by
  induction h with
  | nil g => rfl
  | cons h _ ih =>
    rw [ih]
    simpa [peers] using congrArg List.length h.peers

theorem Turn.get_of_ne {x : Part × Stage} (h : Turn accept g ds g') (hk : g[k]? = some x)
    (hx : x.2 ≠ .fresh) : g'[k]? = some x := by
  have hne : ∀ {l : Nat} {part : Part}, g[l]? = some (part, .fresh) → l ≠ k := by
    rintro l part hl rfl
    cases hk.symm.trans hl
    exact hx rfl
  cases h with
  | settled hl hd => rw [List.getElem?_set_ne (hne hl), hk]
  | failed e hl => rw [List.getElem?_set_ne (hne hl), hk]

theorem Turns.get_of_ne {x : Part × Stage} (h : Turns accept g log g') (hk : g[k]? = some x)
    (hx : x.2 ≠ .fresh) : g'[k]? = some x := by
  induction h with
  | nil g => exact hk
  | cons h _ ih => exact ih (h.get_of_ne hk hx)

theorem Turns.of_mem (h : Turns accept g log g') {d : Deed} (hd : d ∈ log) :
    ∃ (k : Nat) (part : Part) (stage : Stage),
      g[k]? = some (part, .fresh) ∧ part.Does accept d stage := by
  induction h with
  | nil g => cases hd
  | cons h _ ih =>
    rcases List.mem_append.mp hd with hds | hlog
    · cases h with
      | settled hk hdoes =>
        obtain rfl := List.mem_singleton.mp hds
        exact ⟨_, _, _, hk, hdoes⟩
      | failed e hk => cases hds
    · obtain ⟨k, part, stage, hk, hdoes⟩ := ih hlog
      cases h with
      | settled _ hdoes' => exact ⟨k, part, stage, (get_of_set hdoes'.settled hk).2, hdoes⟩
      | failed e _ => exact ⟨k, part, stage, (get_of_set (by simp) hk).2, hdoes⟩

theorem Turn.over {b : Nat} (h : Turn accept g ds g') (hb : Over b g) :
    withPeer b ds = [] ∧ Over b g' := by
  cases h with
  | @settled k part d stage hk hd =>
    have hne : d.peer ≠ b := hd.peer_eq ▸ hb k part hk
    exact ⟨by simp [withPeer, hne], hb.set hd.settled⟩
  | @failed k part e hk => exact ⟨rfl, hb.set (by simp)⟩

theorem Turns.over {b : Nat} (h : Turns accept g log g') (hb : Over b g) :
    withPeer b log = [] := by
  induction h with
  | nil g => rfl
  | cons h _ ih =>
    obtain ⟨hds, hb'⟩ := h.over hb
    rw [withPeer_append, hds, ih hb', List.nil_append]

theorem Turn.cases_fresh (h : Turn accept g ds g') (hg : g.peers.Nodup)
    (hk : g[k]? = some (part, .fresh)) :
    (∃ d stage, part.Does accept d stage ∧ ds = [d] ∧ g'[k]? = some (part, stage) ∧
      Over part.peer g') ∨
    (∃ e, ds = [] ∧ g'[k]? = some (part, .failed e) ∧ Over part.peer g') ∨
    withPeer part.peer ds = [] ∧ g'[k]? = some (part, .fresh) := by
  have hlt := (List.getElem?_eq_some_iff.mp hk).1
  cases h with
  | @settled l part' d stage hl hd =>
    by_cases hkl : k = l
    · subst hkl
      cases hk.symm.trans hl
      exact .inl ⟨d, stage, hd, rfl, by simp [hlt], over_set hg hk hd.settled⟩
    · have hne : d.peer ≠ part.peer := hd.peer_eq ▸ peer_ne hg hkl hk hl
      refine .inr (.inr ⟨by simp [withPeer, hne], ?_⟩)
      rw [List.getElem?_set_ne (Ne.symm hkl), hk]
  | @failed l part' e hl =>
    by_cases hkl : k = l
    · subst hkl
      cases hk.symm.trans hl
      exact .inr (.inl ⟨e, rfl, by simp [hlt], over_set hg hk (by simp)⟩)
    · refine .inr (.inr ⟨rfl, ?_⟩)
      rw [List.getElem?_set_ne (Ne.symm hkl), hk]

/-- What is done with the peer of a fresh part is what settles the part, or nothing. -/
theorem Turns.withPeer_eq (h : Turns accept g log g') (hg : g.peers.Nodup)
    (hk : g[k]? = some (part, .fresh)) :
    ∃ stage, g'[k]? = some (part, stage) ∧
      ((∃ d, part.Does accept d stage ∧ withPeer part.peer log = [d]) ∨
        withPeer part.peer log = [] ∧ ∀ bs, stage ≠ .done bs) := by
  induction h with
  | nil g => exact ⟨.fresh, hk, .inr ⟨rfl, by simp⟩⟩
  -- Up to the turn of the part nothing is done with its peer, and after it nothing more.
  | @cons g g₁ g' ds log h ht ih =>
    rw [withPeer_append]
    rcases h.cases_fresh hg hk with ⟨d, stage, hd, rfl, hk', hover⟩ | ⟨e, rfl, hk', hover⟩ |
      ⟨hds, hk'⟩
    · refine ⟨stage, ht.get_of_ne hk' hd.settled, .inl ⟨d, hd, ?_⟩⟩
      rw [ht.over hover]
      simp [withPeer, hd.peer_eq]
    · refine ⟨.failed e, ht.get_of_ne hk' (by simp), .inr ⟨?_, by simp⟩⟩
      rw [ht.over hover]
      rfl
    · rw [hds, List.nil_append]
      exact ih (h.peers ▸ hg) hk'

theorem messages_eq_some {g : Group} {ms : List Bytes} (h : g.messages? = some ms) :
    ms.length = g.length ∧ ∀ (k : Nat) (part : Part) (stage : Stage),
      g[k]? = some (part, stage) → ∃ bs, stage = .done bs ∧ ms[k]? = some bs := by
  induction g generalizing ms with
  | nil =>
    cases h
    exact ⟨rfl, fun k part stage hk => by simp at hk⟩
  | cons x g ih =>
    rw [messages?, List.mapM_cons] at h
    obtain ⟨bs, hbs, hrest⟩ := Option.bind_eq_some_iff.mp h
    obtain ⟨rest, hms, heq⟩ := Option.bind_eq_some_iff.mp hrest
    cases heq
    obtain ⟨hlen, hget⟩ := ih hms
    refine ⟨by simp [hlen], fun k part stage hk => ?_⟩
    cases k with
    | zero =>
      obtain rfl : x = (part, stage) := by simpa using hk
      cases stage with
      | done bs' =>
        cases hbs
        exact ⟨_, rfl, rfl⟩
      | _ => cases hbs
    | succ k => exact hget k part stage (by simpa using hk)

/-- If a group has come to messages, all its parts are done, each with its message. -/
theorem outcome_eq_ok {settlement : Settlement} {ms : List Bytes}
    (h : g.outcome? settlement = some (.ok ms)) :
    ms.length = g.length ∧ ∀ (k : Nat) (part : Part) (stage : Stage),
      g[k]? = some (part, stage) → ∃ bs, stage = .done bs ∧ ms[k]? = some bs := by
  rw [outcome?] at h
  split at h
  · cases h
  · obtain ⟨ms', hms, heq⟩ := Option.map_eq_some_iff.mp h
    cases heq
    exact messages_eq_some hms

theorem Turns.of_ok (h : Turns accept g log g') (hg : g.peers.Nodup)
    (hk : g[k]? = some (part, .fresh)) {settlement : Settlement} {ms : List Bytes}
    (ho : g'.outcome? settlement = some (.ok ms)) :
    ∃ d bs, part.Does accept d (.done bs) ∧ withPeer part.peer log = [d] ∧ ms[k]? = some bs := by
  obtain ⟨stage, hk', hcases⟩ := h.withPeer_eq hg hk
  obtain ⟨bs, rfl, hbs⟩ := (outcome_eq_ok ho).2 k part stage hk'
  rcases hcases with ⟨d, hd, hlog⟩ | ⟨-, hnot⟩
  · exact ⟨d, bs, hd, hlog, hbs⟩
  · exact absurd rfl (hnot bs)

/-- A message was sent, and nothing else to its target, or the group does not succeed. -/
theorem Turns.sent (h : Turns accept g log g') (hg : g.peers.Nodup) {b : Nat} {bs : Bytes}
    (hk : g[k]? = some (.outgoing b bs, .fresh)) :
    sentTo b log = [bs] ∨ sentTo b log = [] ∧ ∀ settlement result,
      g'.outcome? settlement = some result → ∃ e, result = .error e := by
  obtain ⟨stage, hk', hcases⟩ := h.withPeer_eq hg hk
  rw [Part.peer_outgoing] at hcases
  rw [← sentTo_withPeer]
  rcases hcases with ⟨d, hd, hlog⟩ | ⟨hlog, hnot⟩
  · cases hd
    exact .inl (by simp [hlog])
  · refine .inr ⟨by rw [hlog]; rfl, fun settlement result hresult => ?_⟩
    cases result with
    | error e => exact ⟨e, rfl⟩
    | ok ms =>
      obtain ⟨bs', rfl, -⟩ := (outcome_eq_ok hresult).2 k _ stage hk'
      exact absurd rfl (hnot bs')

/-- In a group of messages nothing is heard, and nothing is sent twice to one target. -/
theorem Turns.of_messages {messages : List (Nat × Bytes)} {before after : List Deed} {b : Nat}
    {bs : Bytes} (hmessages : (messages.map (·.1)).Nodup)
    (h : (ofMessages messages).Turns accept (before ++ .sent b bs :: after) g') :
    (b, bs) ∈ messages ∧ sentTo b before = [] ∧ ∀ a, heardFrom a before = [] := by
  have hg : (ofMessages messages).peers.Nodup := by
    simpa [peers, ofMessages, Function.comp_def] using hmessages
  obtain ⟨k, part, stage, hk, hdoes⟩ := h.of_mem (d := .sent b bs) (by simp)
  cases hdoes
  refine ⟨?_, ?_, fun a => ?_⟩
  · obtain ⟨message, hmem, heq⟩ := List.mem_map.mp (List.mem_of_getElem? hk)
    cases heq
    exact hmem
  · rcases h.sent hg hk with hone | ⟨hnone, -⟩
    · have hlen := congrArg List.length hone
      simp only [sentTo_append, sentTo_sent, if_true, List.length_append, List.length_cons,
        List.length_nil] at hlen
      exact List.length_eq_zero_iff.mp (by omega)
    · simp at hnone
  · refine List.filterMap_eq_nil_iff.mpr fun d hd => ?_
    obtain ⟨k, part, stage, hk, hdoes⟩ := h.of_mem (List.mem_append_left _ hd)
    obtain ⟨message, -, heq⟩ := List.mem_map.mp (List.mem_of_getElem? hk)
    cases heq
    cases hdoes
    rfl

theorem Turns.of_sources {sources : List Nat} {b : Nat} {bs : Bytes}
    (h : (ofSources sources).Turns accept log g') : .sent b bs ∉ log := by
  intro hmem
  obtain ⟨k, part, stage, hk, hdoes⟩ := h.of_mem hmem
  obtain ⟨source, -, heq⟩ := List.mem_map.mp (List.mem_of_getElem? hk)
  cases heq
  cases hdoes

end Group

inductive Trail : Runner α → List Deed → Runner α → Prop
  | nil (r : Runner α) : Trail r [] r
  | goOn {r r' r'' : Runner α} {log : List Deed} (h : r.next? = some r') (ht : Trail r' log r'') :
      Trail r log r''
  | turn {r r' : Runner α} {g : Group} {ds log : List Deed}
      (h : r.group.Turn r.program.accept ds g) (ht : Trail { r with group := g } log r') :
      Trail r (ds ++ log) r'

namespace Trail

variable {r r' r'' : Runner α} {l l' log : List Deed} {t t' : Tape}

theorem trans (h : Trail r l r') (h' : Trail r' l' r'') : Trail r (l ++ l') r'' := by
  induction h with
  | nil r => exact h'
  | goOn h _ ih => exact .goOn h (ih h')
  | turn h _ ih =>
    rw [List.append_assoc]
    exact .turn h (ih h')

theorem of_turns {g g' : Group} (h : g.Turns r.program.accept log g') :
    Trail { r with group := g } log { r with group := g' } := by
  induction h with
  | nil g => exact .nil _
  | cons h _ ih => exact .turn h ih

/-- A trail stays within the first action, or it goes on to the next one. -/
theorem first (h : Trail r log r') :
    (∃ g, r.group.Turns r.program.accept log g ∧ r' = { r with group := g }) ∨
    ∃ l l' g r₁, log = l ++ l' ∧ r.group.Turns r.program.accept l g ∧
      Runner.next? { r with group := g } = some r₁ ∧ Trail r₁ l' r' := by
  induction h with
  | nil r => exact .inl ⟨r.group, .nil _, rfl⟩
  | @goOn r r₁ r' log h ht _ => exact .inr ⟨[], log, r.group, r₁, rfl, .nil _, h, ht⟩
  | @turn r r' g ds log h ht ih =>
    rcases ih with ⟨g', hg', rfl⟩ | ⟨l, l', g', r₁, rfl, hg', hnext, hrest⟩
    · exact .inl ⟨g', .cons h hg', rfl⟩
    · exact .inr ⟨ds ++ l, l', g', r₁, (List.append_assoc ..).symm, .cons h hg', hnext, hrest⟩

theorem turns_nil {accept : Bytes → Except ChannelError Unit} {g : Group}
    (h : Group.Turns accept [] log g) : log = [] ∧ g = [] := by
  cases h with
  | nil => exact ⟨rfl, rfl⟩
  | cons h _ => cases h with
    | settled hk => simp at hk
    | failed e hk => simp at hk

/-- A trail to the end of a program goes past its first action. -/
theorem past_first {p : Protocol α} {a : α} (h : Trail (.start p t) log (.start (.done a) t'))
    (hp : p ≠ .done a) :
    ∃ l l' g r₁, log = l ++ l' ∧ p.parts.Turns p.accept l g ∧
      Runner.next? ⟨p, g, t⟩ = some r₁ ∧ Trail r₁ l' (.start (.done a) t') := by
  rcases h.first with ⟨g, -, heq⟩ | hpast
  · exact absurd (congrArg Runner.program heq).symm hp
  · exact hpast

theorem of_done {a : α} (h : Trail (.start (.done a) t) log r) :
    log = [] ∧ r = .start (.done a) t := by
  rcases h.first with ⟨g, hg, rfl⟩ | ⟨_, _, _, _, _, _, hnext, _⟩
  · obtain ⟨rfl, rfl⟩ := turns_nil hg
    exact ⟨rfl, rfl⟩
  · cases hnext

theorem of_draw {next : Bytes32 → Protocol α} {a : α}
    (h : Trail (.start (.draw next) t) log (.start (.done a) t')) :
    Trail (.start (next (t 0)) t.tail) log (.start (.done a) t') := by
  obtain ⟨l, l', g, r₁, rfl, hg, hnext, hrest⟩ := h.past_first nofun
  obtain ⟨rfl, rfl⟩ := turns_nil hg
  cases hnext
  exact hrest

variable {settlement : Settlement} {phase : String}

theorem of_scatter {messages : List (Nat × Bytes)} {next : Except ChannelError Unit → Protocol α}
    {a : α} (h : Trail (.start (.scatter settlement phase messages next) t) log
      (.start (.done a) t')) :
    ∃ l l' g result, log = l ++ l' ∧ (Group.ofMessages messages).Turns (fun _ => .ok ()) l g ∧
      g.outcome? settlement = some result ∧
      Trail (.start (next (result.map fun _ => ())) t) l' (.start (.done a) t') := by
  obtain ⟨l, l', g, r₁, hlog, hg, hnext, hrest⟩ := h.past_first nofun
  obtain ⟨result, hresult, rfl⟩ := Option.map_eq_some_iff.mp hnext
  exact ⟨l, l', g, result, hlog, hg, hresult, hrest⟩

theorem of_gather {sources : List Nat} {accept : Bytes → Except ChannelError Unit}
    {next : Except ChannelError (List Bytes) → Protocol α} {a : α}
    (h : Trail (.start (.gather settlement phase sources accept next) t) log
      (.start (.done a) t')) :
    ∃ l l' g result, log = l ++ l' ∧ (Group.ofSources sources).Turns accept l g ∧
      g.outcome? settlement = some result ∧
      Trail (.start (next result) t) l' (.start (.done a) t') := by
  obtain ⟨l, l', g, r₁, hlog, hg, hnext, hrest⟩ := h.past_first nofun
  obtain ⟨result, hresult, rfl⟩ := Option.map_eq_some_iff.mp hnext
  exact ⟨l, l', g, result, hlog, hg, hresult, hrest⟩

/-- Nothing goes to a party ahead of its message in the first action, if the program ends
when that action fails. -/
theorem first_sent {messages : List (Nat × Bytes)} {next : Except ChannelError Unit → Protocol α}
    (h : Trail (.start (.scatter settlement phase messages next) t) log r)
    (hnext : ∀ e, ∃ a, next (.error e) = .done a) (hmessages : (messages.map (·.1)).Nodup)
    {b k : Nat} {bs : Bytes} (hk : messages[k]? = some (b, bs)) :
    sentTo b log = [] ∨ ∃ rest, sentTo b log = bs :: rest := by
  have hg : (Group.ofMessages messages).peers.Nodup := by
    simpa [Group.peers, Group.ofMessages, Function.comp_def] using hmessages
  have hk' : (Group.ofMessages messages)[k]? = some (.outgoing b bs, .fresh) := by
    simp [Group.ofMessages, hk]
  -- If the message is not out when the action is over, the action failed, and nothing follows.
  rcases h.first with ⟨g, hl, -⟩ | ⟨l, l', g, r₁, rfl, hl, hr₁, hrest⟩
  · rcases hl.sent hg hk' with h | ⟨h, -⟩
    · exact .inr ⟨[], h⟩
    · exact .inl h
  · rw [sentTo_append]
    rcases hl.sent hg hk' with h | ⟨h, herror⟩
    · exact .inr ⟨sentTo b l', by rw [h]; rfl⟩
    · obtain ⟨result, hresult, rfl⟩ := Option.map_eq_some_iff.mp hr₁
      obtain ⟨e, rfl⟩ := herror settlement result hresult
      obtain ⟨a, ha⟩ := hnext e
      have hdone : Trail (.start (.done a) t) l' r := ha ▸ hrest
      rw [h, hdone.of_done.1]
      exact .inl rfl

theorem scatter {messages : List (Nat × Bytes)} {next : Except ChannelError Unit → Protocol α}
    {g : Group} {result : Except ChannelError (List Bytes)}
    (hg : (Group.ofMessages messages).Turns (fun _ => .ok ()) l g)
    (hresult : g.outcome? settlement = some result)
    (h : Trail (.start (next (result.map fun _ => ())) t) l' r) :
    Trail (.start (.scatter settlement phase messages next) t) (l ++ l') r :=
  (of_turns (r := .start (.scatter settlement phase messages next) t) hg).trans
    (.goOn (Option.map_eq_some_iff.mpr ⟨result, hresult, rfl⟩) h)

theorem gather {sources : List Nat} {accept : Bytes → Except ChannelError Unit}
    {next : Except ChannelError (List Bytes) → Protocol α}
    {g : Group} {result : Except ChannelError (List Bytes)}
    (hg : (Group.ofSources sources).Turns accept l g)
    (hresult : g.outcome? settlement = some result) (h : Trail (.start (next result) t) l' r) :
    Trail (.start (.gather settlement phase sources accept next) t) (l ++ l') r :=
  (of_turns (r := .start (.gather settlement phase sources accept next) t) hg).trans
    (.goOn (Option.map_eq_some_iff.mpr ⟨result, hresult, rfl⟩) h)

theorem bind {p : Protocol α} {f : α → Protocol β} {a : α} {r : Runner β}
    (h : Trail (.start p t) l (.start (.done a) t')) (h' : Trail (.start (f a) t') l' r) :
    Trail (.start (p.bind f) t) (l ++ l') r := by
  induction p generalizing t l with
  | done b =>
    obtain ⟨rfl, heq⟩ := h.of_done
    cases heq
    exact h'
  | draw next ih => exact .goOn rfl (ih _ h.of_draw)
  | scatter settlement phase messages next ih =>
    obtain ⟨k, k', g, result, rfl, hg, hresult, hrest⟩ := h.of_scatter
    rw [List.append_assoc]
    exact .scatter hg hresult (ih _ hrest)
  | gather settlement phase sources accept next ih =>
    obtain ⟨k, k', g, result, rfl, hg, hresult, hrest⟩ := h.of_gather
    rw [List.append_assoc]
    exact .gather hg hresult (ih _ hrest)

/-- A trail of a program that is put together stays within its first part, or goes through the
end of it. -/
theorem bind_cases {p : Protocol α} {f : α → Protocol β} {r : Runner β}
    (h : Trail (.start (p.bind f) t) log r) :
    ((∃ r', Trail (.start p t) log r') ∧ ∀ b, r.program ≠ .done b) ∨
      ∃ a l l' u, log = l ++ l' ∧ Trail (.start p t) l (.start (.done a) u) ∧
        Trail (.start (f a) u) l' r := by
  induction p generalizing t log with
  | done a => exact .inr ⟨a, [], log, t, rfl, .nil _, h⟩
  | draw next ih =>
    rcases h.first with ⟨g, hg, rfl⟩ | ⟨l, l', g, r₁, rfl, hg, hnext, hrest⟩
    · obtain ⟨rfl, rfl⟩ := turns_nil hg
      exact .inl ⟨⟨_, .nil _⟩, by rintro b ⟨⟩⟩
    · obtain ⟨rfl, rfl⟩ := turns_nil hg
      cases hnext
      rcases ih _ hrest with ⟨⟨r', hp⟩, hne⟩ | ⟨a, k, k', u, rfl, hp, hf⟩
      · exact .inl ⟨⟨r', .goOn rfl hp⟩, hne⟩
      · exact .inr ⟨a, k, k', u, rfl, .goOn rfl hp, hf⟩
  | scatter settlement phase messages next ih =>
    rcases h.first with ⟨g, hg, rfl⟩ | ⟨l, l', g, r₁, rfl, hg, hnext, hrest⟩
    · exact .inl ⟨⟨_, of_turns (r := .start (.scatter settlement phase messages next) t) hg⟩,
        by rintro b ⟨⟩⟩
    · obtain ⟨result, hresult, rfl⟩ := Option.map_eq_some_iff.mp hnext
      rcases ih _ hrest with ⟨⟨r', hp⟩, hne⟩ | ⟨a, k, k', u, rfl, hp, hf⟩
      · exact .inl ⟨⟨r', .scatter hg hresult hp⟩, hne⟩
      · exact .inr ⟨a, l ++ k, k', u, (List.append_assoc ..).symm, .scatter hg hresult hp, hf⟩
  | gather settlement phase sources accept next ih =>
    rcases h.first with ⟨g, hg, rfl⟩ | ⟨l, l', g, r₁, rfl, hg, hnext, hrest⟩
    · exact .inl ⟨⟨_, of_turns (r := .start (.gather settlement phase sources accept next) t) hg⟩,
        by rintro b ⟨⟩⟩
    · obtain ⟨result, hresult, rfl⟩ := Option.map_eq_some_iff.mp hnext
      rcases ih _ hrest with ⟨⟨r', hp⟩, hne⟩ | ⟨a, k, k', u, rfl, hp, hf⟩
      · exact .inl ⟨⟨r', .gather hg hresult hp⟩, hne⟩
      · exact .inr ⟨a, l ++ k, k', u, (List.append_assoc ..).symm, .gather hg hresult hp, hf⟩

theorem of_bind {p : Protocol α} {f : α → Protocol β} {b : β}
    (h : Trail (.start (p.bind f) t) log (.start (.done b) t')) :
    ∃ a l l' u, log = l ++ l' ∧ Trail (.start p t) l (.start (.done a) u) ∧
      Trail (.start (f a) u) l' (.start (.done b) t') :=
  h.bind_cases.resolve_left fun hleft => hleft.2 b rfl

theorem rest_eq {p : Protocol α} {f g : α → Protocol β} {a : α} (hfg : p.bind f = p.bind g)
    (h : Trail (.start p t) log (.start (.done a) t')) : f a = g a := by
  induction p generalizing t log with
  | done b =>
    obtain ⟨-, heq⟩ := h.of_done
    cases heq
    exact hfg
  | draw next ih =>
    injection hfg with hnext
    exact ih _ (congrFun hnext _) h.of_draw
  | scatter settlement phase messages next ih =>
    obtain ⟨_, _, _, result, _, _, _, hrest⟩ := h.of_scatter
    injection hfg with _ _ _ hnext
    exact ih _ (congrFun hnext _) hrest
  | gather settlement phase sources accept next ih =>
    obtain ⟨_, _, _, result, _, _, _, hrest⟩ := h.of_gather
    injection hfg with _ _ _ _ hnext
    exact ih _ (congrFun hnext _) hrest

theorem tidy (h : Trail r log r') (hr : r.Tidy) : r'.Tidy := by
  induction h with
  | nil r => exact hr
  | goOn hnext _ ih => exact ih (Runner.next_andThen Protocol.done hnext).2
  | @turn r r' g ds log hturn _ ih =>
    refine ih fun a ha => ?_
    rw [hr a ha] at hturn
    exact (turns_nil (.cons hturn (.nil g))).2

theorem ended {p : Protocol α} {a : α} (h : Trail (.start p t) log r)
    (hr : r.program = .done a) : ∃ t', r = .start (.done a) t' := by
  have hgroup := h.tidy (Runner.start_tidy p t) a hr
  obtain ⟨program, group, tape⟩ := r
  cases hr
  cases hgroup
  exact ⟨tape, rfl⟩

end Trail

end AuthShares
