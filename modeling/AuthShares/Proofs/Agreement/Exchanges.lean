import AuthShares.Proofs.Commitment
import AuthShares.Proofs.Network.Trails

/-!
# What an exchange leaves behind

A party that has succeeded with a broadcast has sent its message to every other party and
nothing else, and it has heard one message from each. What it holds for another party is
what it read in the message from there, so two parties that heard the same hold the same.
-/

set_option autoImplicit false

namespace AuthShares

variable {n : Nat} {α β ε : Type} {t t' : Tape} {log : List Deed} {phase : String}

/-- A party can carry out a program without failing, and comes to a value. -/
def Succeeds (m : ExceptT ε Protocol α) (t : Tape) (log : List Deed) (a : α) (t' : Tape) : Prop :=
  Trail (.start m.run t) log (.start (.done (.ok a)) t')

namespace Succeeds

theorem of_pure {a b : α} (h : Succeeds (pure a : ExceptT ε Protocol α) t log b t') :
    log = [] ∧ b = a ∧ t' = t := by
  obtain ⟨rfl, heq⟩ := Trail.of_done h
  cases heq
  exact ⟨rfl, rfl, rfl⟩

theorem of_bind {m : ExceptT ε Protocol α} {f : α → ExceptT ε Protocol β} {b : β}
    (h : Succeeds (m >>= f) t log b t') :
    ∃ a l l' u, log = l ++ l' ∧ Succeeds m t l a u ∧ Succeeds (f a) u l' b t' := by
  obtain ⟨r, l, l', u, rfl, hm, hf⟩ := Trail.of_bind (p := m.run) h
  cases r with
  | ok a => exact ⟨a, l, l', u, rfl, hm, hf⟩
  | error e =>
    obtain ⟨-, heq⟩ := Trail.of_done hf
    cases heq

theorem of_lift {m : Link α} {a : α} (h : Succeeds (liftM m : Interaction α) t log a t') :
    Succeeds m t log a t' := by
  obtain ⟨r, l, l', u, rfl, hm, hf⟩ := Trail.of_bind (p := m.run) h
  obtain ⟨rfl, heq⟩ := Trail.of_done hf
  rw [List.append_nil]
  cases r with
  | ok b =>
    cases heq
    exact hm
  | error e => cases heq

theorem of_draw {r : Bytes32} (h : Succeeds Interaction.draw t log r t') :
    log = [] ∧ r = t 0 ∧ t' = t.tail := by
  have hdraw : Trail (.start (.draw fun r => .done (.ok r)) t) log
      (.start (.done (.ok r : Except Error Bytes32)) t') := h
  obtain ⟨rfl, heq⟩ := hdraw.of_draw.of_done
  cases heq
  exact ⟨rfl, rfl, rfl⟩

end Succeeds

namespace Trail

theorem thenDo_cases {m : ExceptT ε Protocol α} {f : α → ExceptT ε Protocol β}
    {r : Runner (Except ε β)} (h : Trail (.start (m >>= f).run t) log r) :
    ((∃ r', Trail (.start m.run t) log r') ∧ ∀ b, r.program ≠ .done (.ok b)) ∨
      ∃ a l l' u, log = l ++ l' ∧ Succeeds m t l a u ∧ Trail (.start (f a).run u) l' r := by
  rcases bind_cases (p := m.run) h with ⟨hm, hne⟩ | ⟨result, l, l', u, rfl, hm, hf⟩
  · exact .inl ⟨hm, fun b => hne _⟩
  · cases result with
    | ok a => exact .inr ⟨a, l, l', u, rfl, hm, hf⟩
    | error e =>
      obtain ⟨rfl, rfl⟩ := of_done hf
      rw [List.append_nil]
      exact .inl ⟨⟨_, hm⟩, by rintro b ⟨⟩⟩

theorem of_lift {m : Link α} {r : Runner (Except Error α)}
    (h : Trail (.start (liftM m : Interaction α).run t) log r) :
    ∃ r', Trail (.start m.run t) log r' := by
  rcases bind_cases (p := m.run) h with ⟨hm, -⟩ | ⟨result, l, l', u, rfl, hm, hf⟩
  · exact hm
  · obtain ⟨rfl, -⟩ := of_done hf
    rw [List.append_nil]
    exact ⟨_, hm⟩

/-- A program of a single action only settles parts of it. -/
theorem turns_of_single {p : Protocol α} {r : Runner α} (h : Trail (.start p t) log r)
    (hp : ∀ g r₁, Runner.next? ⟨p, g, t⟩ = some r₁ → ∃ a u, r₁ = .start (.done a) u) :
    ∃ g, p.parts.Turns p.accept log g := by
  rcases h.first with ⟨g, hg, -⟩ | ⟨l, l', g, r₁, rfl, hg, hnext, hrest⟩
  · exact ⟨g, hg⟩
  · obtain ⟨a, u, rfl⟩ := hp g r₁ hnext
    obtain ⟨rfl, -⟩ := hrest.of_done
    exact ⟨g, by rwa [List.append_nil]⟩

theorem of_sending {size : Nat} {messages : List (Nat × Bytes)}
    {r : Runner (Except ChannelError Unit)}
    (h : Trail (.start (Link.scatter size phase messages).run t) log r) :
    ∃ g, (Group.ofMessages messages).Turns (fun _ => .ok ()) log g := by
  apply h.turns_of_single
  intro g r₁ hnext
  obtain ⟨result, -, rfl⟩ := Option.map_eq_some_iff.mp hnext
  exact ⟨_, t, rfl⟩

theorem of_waiting {size : Nat} {sources : List Nat} {decode : Bytes → Except ChannelError α}
    {r : Runner (Except ChannelError (List α))}
    (h : Trail (.start (Link.gather size phase sources decode).run t) log r) :
    ∃ g, (Group.ofSources sources).Turns (fun bs => (decode bs).map fun _ => ()) log g := by
  apply h.turns_of_single
  intro g r₁ hnext
  obtain ⟨result, -, rfl⟩ := Option.map_eq_some_iff.mp hnext
  exact ⟨_, t, rfl⟩

end Trail

theorem Stage.ofMessage_eq_done {accept : Bytes → Except ChannelError Unit} {bs bs' : Bytes} :
    ofMessage accept bs = .done bs' ↔ accept bs = .ok () ∧ bs = bs' := by
  unfold ofMessage
  split <;> simp [*]

theorem mapM_eq_ok {f : α → Except ε β} {xs : List α} {ys : List β} (h : xs.mapM f = .ok ys) :
    ys.length = xs.length ∧
      ∀ (k : Nat) (x : α), xs[k]? = some x → ∃ y, f x = .ok y ∧ ys[k]? = some y := by
  induction xs generalizing ys with
  | nil =>
    cases h
    exact ⟨rfl, fun k x hk => by simp at hk⟩
  | cons x xs ih =>
    rw [List.mapM_cons] at h
    cases hx : f x with
    | error e => simp [hx, bind, Except.bind] at h
    | ok y =>
      cases hxs : xs.mapM f with
      | error e => simp [hx, hxs, bind, Except.bind] at h
      | ok ys' =>
        simp only [hx, hxs, bind, Except.bind, pure, Except.pure, Except.ok.injEq] at h
        subst h
        obtain ⟨hlen, hget⟩ := ih hxs
        refine ⟨by simp [hlen], fun k x' hk => ?_⟩
        cases k with
        | zero =>
          obtain rfl : x = x' := by simpa using hk
          exact ⟨y, hx, rfl⟩
        | succ k => exact hget k x' (by simpa using hk)

namespace Succeeds

theorem of_scatter {size : Nat} {messages : List (Nat × Bytes)} {a : Unit}
    (h : Succeeds (Link.scatter size phase messages) t log a t')
    (hmessages : (messages.map (·.1)).Nodup) :
    t' = t ∧ ∀ (k b : Nat) (bs : Bytes), messages[k]? = some (b, bs) →
      withPeer b log = [.sent b bs] := by
  obtain ⟨l, l', g, result, rfl, hl, hresult, hrest⟩ := Trail.of_scatter h
  obtain ⟨rfl, heq⟩ := hrest.of_done
  cases result with
  | error e => cases heq
  | ok ms =>
    cases heq
    refine ⟨rfl, fun k b bs hk => ?_⟩
    have hg : (Group.ofMessages messages).peers.Nodup := by
      simpa [Group.peers, Group.ofMessages, Function.comp_def] using hmessages
    have hk' : (Group.ofMessages messages)[k]? = some (.outgoing b bs, .fresh) := by
      simp [Group.ofMessages, hk]
    obtain ⟨d, bs', hd, hlog, -⟩ := hl.of_ok hg hk' hresult
    cases hd
    rwa [List.append_nil]

theorem of_gather {size : Nat} {sources : List Nat} {decode : Bytes → Except ChannelError β}
    {ys : List β} (h : Succeeds (Link.gather size phase sources decode) t log ys t')
    (hsources : sources.Nodup) :
    t' = t ∧ ys.length = sources.length ∧ ∀ k a : Nat, sources[k]? = some a →
      ∃ bs y, withPeer a log = [.heard a bs] ∧ decode bs = .ok y ∧ ys[k]? = some y := by
  obtain ⟨l, l', g, result, rfl, hl, hresult, hrest⟩ := Trail.of_gather h
  obtain ⟨rfl, heq⟩ := hrest.of_done
  cases result with
  | error e => cases heq
  | ok ms =>
    have ht : t' = t := congrArg Runner.tape heq
    have hys : Except.ok ys = ms.mapM decode := by
      injection congrArg Runner.program heq
    obtain ⟨hlen, hget⟩ := mapM_eq_ok hys.symm
    have hms := (Group.outcome_eq_ok hresult).1.trans hl.length_eq
    refine ⟨ht, hlen.trans (hms.trans (by simp [Group.ofSources])), fun k a hk => ?_⟩
    have hpeers : (Group.ofSources sources).peers.Nodup := by
      simpa [Group.peers, Group.ofSources, Function.comp_def] using hsources
    have hk' : (Group.ofSources sources)[k]? = some (.incoming a, .fresh) := by
      simp [Group.ofSources, hk]
    obtain ⟨d, bs, hd, hlog, hbs⟩ := hl.of_ok hpeers hk' hresult
    obtain ⟨y, hy, hyk⟩ := hget k bs hbs
    generalize hstage : Stage.done bs = stage at hd
    cases hd with
    | heard source bs' =>
      obtain ⟨-, rfl⟩ := Stage.ofMessage_eq_done.mp hstage.symm
      exact ⟨bs', y, by rwa [List.append_nil], hy, hyk⟩

end Succeeds

/-- The place of another party among the others, and of its entry once one's own is put in. -/
theorem Player.others_place {i k : Fin n} (hki : k ≠ i) :
    ∃ m : Nat, (Player.numbered i).others[m]? = some k.val ∧
      ∀ {β : Type} (ys : List β) (y : β), (ys.insertIdx i y)[k.val]? = ys[m]? := by
  have hk := k.isLt
  have hne := Fin.val_ne_of_ne hki
  rw [Player.others_numbered]
  by_cases hlt : k.val < i.val
  · refine ⟨k, ?_, fun ys y => ?_⟩
    · rw [List.getElem?_eraseIdx, if_pos hlt, List.getElem?_range hk]
    · rw [List.getElem?_insertIdx, if_pos hlt]
  · refine ⟨k - 1, ?_, fun ys y => ?_⟩
    · have hplace : k.val - 1 + 1 = k.val := by omega
      rw [List.getElem?_eraseIdx, if_neg (by omega), hplace, List.getElem?_range hk]
    · rw [List.getElem?_insertIdx, if_neg hlt, if_neg hne]

theorem Player.length_others (i : Fin n) : (Player.numbered i).others.length = n - 1 := by
  rw [Player.others_numbered, List.length_eraseIdx_of_lt (by simp), List.length_range]

variable [Wire α]

structure Exchanged (i : Fin n) (phase : String) (xs : List α) (log : List Deed)
    (all : List (List α)) : Prop where
  length : all.length = n
  own : all[i.val]? = some xs
  sent : ∀ k : Fin n, k ≠ i → sentTo k log = [Wire.encode xs]
  heard : ∀ k : Fin n, k ≠ i → ∃ bs list, heardFrom k log = [bs] ∧
    decodeListOf phase xs.length bs = .ok list ∧ all[k.val]? = some list

theorem Succeeds.of_broadcast {i : Fin n} {xs : List α} {all : List (List α)}
    (h : Succeeds (Link.broadcast (Player.numbered i) phase xs) t log all t') :
    t' = t ∧ Exchanged i phase xs log all := by
  obtain ⟨_, l, log', u, rfl, hsend, h⟩ := h.of_bind
  obtain ⟨lists, l', l'', u', rfl, hgather, h⟩ := h.of_bind
  obtain ⟨rfl, rfl, rfl⟩ := h.of_pure
  have hothers := Player.others_nodup (Player.numbered i)
  obtain ⟨rfl, hsent⟩ := hsend.of_scatter (by simpa [Function.comp_def] using hothers)
  obtain ⟨rfl, hlen, hheard⟩ := hgather.of_gather hothers
  have hle : i.val ≤ lists.length := by
    rw [hlen, Player.length_others]
    omega
  have hpeer : ∀ k : Fin n, k ≠ i → ∃ bs list,
      withPeer k (l ++ (l' ++ [])) = [.sent k (Wire.encode xs), .heard k bs] ∧
        decodeListOf phase xs.length bs = .ok list ∧
        (lists.insertIdx i xs)[k.val]? = some list := by
    intro k hki
    obtain ⟨m, hm, hplace⟩ := Player.others_place hki
    obtain ⟨bs, list, hl', hdecode, hlist⟩ := hheard m k hm
    refine ⟨bs, list, ?_, hdecode, (hplace lists xs).trans hlist⟩
    rw [List.append_nil, withPeer_append, hsent m k (Wire.encode xs) (by simp [hm]), hl']
    rfl
  refine ⟨rfl, ?_, ?_, fun k hki => ?_, fun k hki => ?_⟩
  · rw [Player.numbered_me, List.length_insertIdx_of_le_length hle, hlen, Player.length_others]
    omega
  · rw [Player.numbered_me, List.getElem?_insertIdx_self, if_pos hle]
  · obtain ⟨bs, list, hlog, -⟩ := hpeer k hki
    rw [← sentTo_withPeer, hlog]
    simp
  · obtain ⟨bs, list, hlog, hdecode, hall⟩ := hpeer k hki
    refine ⟨bs, list, ?_, hdecode, hall⟩
    rw [← heardFrom_withPeer, hlog]
    simp

theorem Exchanged.get_of_heard [LawfulWire α] {i k : Fin n} {xs ys : List α}
    {all : List (List α)} (h : Exchanged i phase xs log all) (hki : k ≠ i)
    (hheard : heardFrom k log = [Wire.encode ys]) (hlen : ys.length = xs.length)
    (hsize : xs.length < wordRange) : all[k.val]? = some ys := by
  obtain ⟨bs, list, hbs, hdecode, hall⟩ := h.heard k hki
  obtain rfl : bs = Wire.encode ys := by simpa [hbs] using hheard
  rw [← hlen, decodeListOf_encode phase ys (hlen ▸ hsize)] at hdecode
  cases hdecode
  exact hall

theorem length_of_decodeListOf {size : Nat} {bs : Bytes} {list : List α}
    (h : decodeListOf phase size bs = .ok list) : list.length = size := by
  unfold decodeListOf at h
  split at h
  · split at h
    · rename_i hlen
      cases h
      exact hlen
    · cases h
  · cases h

theorem Exchanged.length_of_mem {i : Fin n} {xs list : List α} {all : List (List α)}
    (h : Exchanged i phase xs log all) (hlist : list ∈ all) : list.length = xs.length := by
  obtain ⟨k, hk⟩ := List.getElem?_of_mem hlist
  have hkn : k < n := h.length ▸ (List.getElem?_eq_some_iff.mp hk).1
  by_cases hki : (⟨k, hkn⟩ : Fin n) = i
  · have hown := h.own
    rw [← hki] at hown
    rw [Option.some.inj (hk.symm.trans hown)]
  · obtain ⟨bs, list', -, hdecode, hall⟩ := h.heard _ hki
    obtain rfl := Option.some.inj (hk.symm.trans hall)
    exact length_of_decodeListOf hdecode

/-- What one party has sent first to another one in a broadcast, that one has heard first. -/
theorem Exchanged.peel {i j : Fin n} (hij : i ≠ j) {phase' : String} {xs ys : List α}
    {all all' : List (List α)} {l l' k k' : List Deed} {q : List Bytes}
    (hi : Exchanged i phase xs l all) (hj : Exchanged j phase' ys k all')
    (h : sentTo i (k ++ k') = heardFrom j (l ++ l') ++ q) :
    heardFrom j l = [Wire.encode ys] ∧ sentTo i k' = heardFrom j l' ++ q := by
  obtain ⟨bs, list, hl, -⟩ := hi.heard j hij.symm
  rw [sentTo_append, heardFrom_append, hj.sent i hij, hl] at h
  injection h with hbs hrest
  exact ⟨hbs ▸ hl, hrest⟩

omit [Wire α] in
theorem split_append {l l' before after : List α} {d : α} (h : l ++ l' = before ++ d :: after) :
    (∃ rest, l = before ++ d :: rest) ∨ ∃ rest, before = l ++ rest ∧ l' = rest ++ d :: after := by
  rcases List.append_eq_append_iff.mp h with ⟨rest, rfl, hrest⟩ | ⟨rest, rfl, hrest⟩
  · exact .inr ⟨rest, rfl, hrest⟩
  · rcases List.append_eq_cons_iff.mp hrest.symm with ⟨rfl, hl'⟩ | ⟨rest', rfl, -⟩
    · exact .inr ⟨[], by simp, hl'⟩
    · exact .inl ⟨rest', rfl⟩

/-- A party that broadcasts sends its message to every other one before it hears anything. -/
theorem Link.sent_in_broadcast {i : Fin n} {xs : List α} {before after : List Deed} {b : Nat}
    {bs : Bytes} {r : Runner (Except ChannelError (List (List α)))}
    (h : Trail (.start (broadcast (Player.numbered i) phase xs).run t)
      (before ++ .sent b bs :: after) r) :
    bs = Wire.encode xs ∧ b ∈ (Player.numbered i).others ∧ sentTo b before = [] ∧
      ∀ a, heardFrom a before = [] := by
  have hsent : ∃ g rest, (Group.ofMessages ((Player.numbered i).others.map fun party =>
      (party, Wire.encode xs))).Turns (fun _ => .ok ()) (before ++ .sent b bs :: rest) g := by
    rcases h.thenDo_cases with ⟨⟨r', hsend⟩, -⟩ | ⟨_, l, l', u, hlog, hsend, hwait⟩
    · obtain ⟨g, hg⟩ := hsend.of_sending
      exact ⟨g, after, hg⟩
    · obtain ⟨g, hg⟩ := hsend.of_sending
      -- What follows the messages is waiting alone.
      have hnone : .sent b bs ∉ l' := by
        rcases hwait.thenDo_cases with ⟨⟨r', hgather⟩, -⟩ | ⟨_, k, k', u', rfl, hgather, hpure⟩
        · obtain ⟨g', hg'⟩ := hgather.of_waiting
          exact hg'.of_sources
        · obtain ⟨rfl, -⟩ := Trail.of_done hpure
          obtain ⟨g', hg'⟩ := Trail.of_waiting hgather
          rw [List.append_nil]
          exact hg'.of_sources
      rcases split_append hlog.symm with ⟨rest, rfl⟩ | ⟨rest, -, rfl⟩
      · exact ⟨g, rest, hg⟩
      · exact absurd (by simp) hnone
  obtain ⟨g, rest, hg⟩ := hsent
  have hothers := Player.others_nodup (Player.numbered i)
  obtain ⟨hmem, hto, hfrom⟩ := hg.of_messages (by simpa [Function.comp_def] using hothers)
  obtain ⟨party, hparty, heq⟩ := List.mem_map.mp hmem
  cases heq
  exact ⟨rfl, hparty, hto, hfrom⟩

/-- Nothing goes to a party ahead of the message of a broadcast. -/
theorem Link.first_sent {i k : Fin n} (hki : k ≠ i) {xs : List α}
    {f : List (List α) → Interaction β} {r : Runner (Except Error β)}
    (h : Trail (.start ((liftM (broadcast (Player.numbered i) phase xs) : Interaction _) >>= f).run
      t) log r) :
    sentTo k log = [] ∨ ∃ rest, sentTo k log = Wire.encode xs :: rest := by
  have hothers := Player.others_nodup (Player.numbered i)
  obtain ⟨m, hm, -⟩ := Player.others_place hki
  refine Trail.first_sent h (fun e => ⟨_, rfl⟩) (k := m) ?_ ?_
  · simpa [Function.comp_def] using hothers
  · simp [hm]

end AuthShares
