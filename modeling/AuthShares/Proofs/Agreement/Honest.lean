import AuthShares.Proofs.Agreement.Rounds
import AuthShares.Proofs.Network.Hostile

/-!
# Agreement among hostile parties

Parties that are not honest may tell every other one something else, when they commit, when
they repeat what they heard and when they open. An honest party that compares what it heard
with the digests of all others knows that every honest party heard the same; for two
parties alone there is nothing to compare. As nobody can open one commitment in two ways,
honest parties that get to the end come to the same values.
-/

set_option autoImplicit false

namespace AuthShares

open Interaction

variable {n : Nat} {α β : Type} [Wire α] {i j : Fin n} {phase : String}

namespace Scene

variable {γ δ ε : Type}

theorem Passed.begin {p : Fin n → Protocol β} {t : Fin n → Tape} {s : Scene n β}
    {m : ExceptT ε Protocol γ} {g : γ → ExceptT ε Protocol δ} {b : δ}
    (h : s.Passed p t i (m >>= g).run (.ok b)) :
    ∃ a l u u', s.Passed p t i m.run (.ok a) ∧ Succeeds (g a) u l b u' := by
  obtain ⟨f, l, l', u, hp, hlog, hm, hf⟩ := h
  obtain ⟨a, l₁, l₂, u₁, rfl, h₁, h₂⟩ := Succeeds.of_bind hm
  have hp' : p i = (m.run.bind (ExceptT.bindCont g)).bind f := hp
  rw [Protocol.bind_bind] at hp'
  rw [List.append_assoc] at hlog
  exact ⟨a, l₂, u₁, u, ⟨_, l₁, l₂ ++ l', u₁, hp', hlog, h₁, Trail.bind h₂ hf⟩, h₂⟩

/-- Strings that honest parties hash in an opening: what they received, in order to compare
it, and the openings of others they found right. -/
inductive Hashed (honest : Finset (Fin n)) (p : Fin n → Protocol β) (t : Fin n → Tape)
    (s : Scene n β) (phase : String) (contribute : Fin n → Interaction α) : Bytes → Prop
  | received {i : Fin n} {v : α} {r : Bytes32} {all : List (List Bytes32)} {list : List Bytes32}
      (hi : i ∈ honest) (hn : 2 < n)
      (h : s.Passed p t i (committed (Player.numbered i) phase (contribute i)).run
        (.ok (v, r, all)))
      (hlist : list ∈ all) : Hashed honest p t s phase contribute (Wire.encode list)
  | opening {i : Fin n} {commitments : List (List Bytes32)} {openings : List (List (α × Bytes32))}
      {values : List α} {k : Nat} {v : α} {r : Bytes32} {vs : List (α × Bytes32)} (hi : i ∈ honest)
      (h : s.Passed p t i (opened (Player.numbered i) phase (contribute i)).run
        (.ok (commitments, openings)))
      (hvalues : checkOpenings i 0 (commitments.zip openings) = .ok values) (hki : k ≠ i)
      (hk : openings[k]? = some ((v, r) :: vs)) :
      Hashed honest p t s phase contribute (committedBytes v r k)

section Passed

variable {p : Fin n → Protocol (Except Error β)} {t : Fin n → Tape} {s : Scene n (Except Error β)}
  {contribute : Interaction α} {value : α} {u : Tape} {finish : List α → β}

theorem Passed.committed {v : α} {r : Bytes32} {all : List (List Bytes32)}
    (hp : p i = (openWith (Player.numbered i) phase contribute finish).run)
    (hc : Gives contribute (t i) value u)
    (h : s.Passed p t i (Interaction.committed (Player.numbered i) phase contribute).run
      (.ok (v, r, all))) :
    ∃ l l', s.logs i = l ++ l' ∧
      Exchanged i (phase ++ " comm") [commit (committedBytes value (u 0) i)] l all ∧
      (2 < n → ∀ k ≠ i, sentTo k l' = [] ∨
        ∃ rest, sentTo k l' = Wire.encode (digests all) :: rest) := by
  obtain ⟨f, l, l', u', hf, hlog, hm, hrest⟩ := h
  obtain ⟨-, -, hall⟩ := Succeeds.of_committed hc hm
  refine ⟨l, l', hlog, hall, fun hn k hki => ?_⟩
  obtain ⟨rest, heq, hnext⟩ := openWith_committed (Player.numbered i) phase contribute finish
  have hbind : (Interaction.committed (Player.numbered i) phase contribute).run.bind f =
      (Interaction.committed (Player.numbered i) phase contribute).run.bind
        (ExceptT.bindCont rest) := by
    rw [← hf, hp, heq]
    rfl
  rw [Trail.rest_eq hbind hm] at hrest
  obtain ⟨g, hg⟩ := hnext (v, r, all) hn
  have hrun : (ExceptT.bindCont rest (.ok (v, r, all)) : Protocol (Except Error β)) =
      (rest (v, r, all)).run := rfl
  rw [hrun, hg] at hrest
  exact Link.first_sent hki hrest

theorem Passed.committed_of_verified {v : α} {r : Bytes32} {all : List (List Bytes32)}
    (h : s.Passed p t i (verified (Player.numbered i) phase contribute).run (.ok (v, r, all))) :
    s.Passed p t i (Interaction.committed (Player.numbered i) phase contribute).run
      (.ok (v, r, all)) := by
  rw [verified_eq] at h
  obtain ⟨⟨v', r', all'⟩, l, u₁, u₂, hcommitted, hrest⟩ := h.begin
  obtain ⟨_, l₁, l₂, _, -, hcompare, h₁⟩ := hrest.of_bind
  obtain ⟨rfl, -, -⟩ := hcompare.of_compareViews
  obtain ⟨-, heq, -⟩ := h₁.of_pure
  cases heq
  exact hcommitted

theorem Passed.verified_of_opened {commitments : List (List Bytes32)}
    {openings : List (List (α × Bytes32))}
    (h : s.Passed p t i (opened (Player.numbered i) phase contribute).run
      (.ok (commitments, openings))) :
    ∃ v r, s.Passed p t i (verified (Player.numbered i) phase contribute).run
      (.ok (v, r, commitments)) := by
  rw [opened_eq] at h
  obtain ⟨⟨v, r, all⟩, l, u₁, u₂, hverified, hrest⟩ := h.begin
  obtain ⟨_, l₁, l₂, _, -, -, h₁⟩ := hrest.of_bind
  obtain ⟨-, heq, -⟩ := h₁.of_pure
  cases heq
  exact ⟨v, r, hverified⟩

theorem Passed.opened {commitments : List (List Bytes32)} {openings : List (List (α × Bytes32))}
    (hc : Gives contribute (t i) value u)
    (h : s.Passed p t i (Interaction.opened (Player.numbered i) phase contribute).run
      (.ok (commitments, openings))) :
    commitments.length = n ∧ openings.length = n ∧
      openings[i.val]? = some [(value, u 0)] := by
  obtain ⟨f, log, rest, w, -, -, hm, -⟩ := h
  obtain ⟨l, l', l'', -, hall, -, hopenings⟩ := Succeeds.of_opened hc hm
  exact ⟨hall.length, hopenings.length, hopenings.own⟩

end Passed

section Agree

variable {honest : Finset (Fin n)} {p : Fin n → Protocol (Except Error β)} {t u : Fin n → Tape}
  {s : Scene n (Except Error β)} {contribute : Fin n → Interaction α} {value : Fin n → α}
  {finish : List α → β}

theorem Sound.opened (hs : s.Sound honest p t)
    (hp : ∀ i, p i = (openWith (Player.numbered i) phase (contribute i) finish).run)
    (hi : i ∈ honest) {b : β} (hr : (s.runners i).program = .done (.ok b)) :
    ∃ commitments openings values,
      s.Passed p t i (Interaction.opened (Player.numbered i) phase (contribute i)).run
        (.ok (commitments, openings)) ∧
      checkOpenings i 0 (commitments.zip openings) = .ok values ∧ b = finish values := by
  have h := hs.passed hi hr
  rw [hp i, openWith_eq] at h
  obtain ⟨⟨commitments, openings⟩, l, u₁, u₂, hopened, hrest⟩ := h.begin
  obtain ⟨values, l₁, l₂, _, -, hcheck, h₁⟩ := hrest.of_bind
  obtain ⟨-, heq⟩ := Trail.of_done hcheck
  obtain ⟨-, hb, -⟩ := h₁.of_pure
  have hvalues : Except.ok values = checkOpenings i 0 (commitments.zip openings) := by
    injection congrArg Runner.program heq
  exact ⟨commitments, openings, values, hopened, hvalues.symm, hb⟩

variable (hs : s.Sound honest p t) (hc : ∀ i, Gives (contribute i) (t i) (value i) (u i))
  (hi : i ∈ honest) (hj : j ∈ honest)

include hs hc hi hj

/-- What an honest party commits to is heard by all honest parties that hear all commitments. -/
theorem Sound.commitment_heard
    (hp : ∀ i, p i = (openWith (Player.numbered i) phase (contribute i) finish).run)
    (hij : i ≠ j) {v v' : α} {r r' : Bytes32} {all all' : List (List Bytes32)}
    (h : s.Passed p t i (Interaction.committed (Player.numbered i) phase (contribute i)).run
      (.ok (v, r, all)))
    (h' : s.Passed p t j (Interaction.committed (Player.numbered j) phase (contribute j)).run
      (.ok (v', r', all'))) :
    all[j.val]? = some [commit (committedBytes (value j) (u j 0) j)] := by
  obtain ⟨l, l', hlog, hall, -⟩ := h.committed (hp i) (hc i)
  obtain ⟨k, k', hlog', hall', -⟩ := h'.committed (hp j) (hc j)
  have hkeeps := hs.keeps j hj i hi
  rw [hlog, hlog'] at hkeeps
  have hheard := (hall.peel hij hall' hkeeps).1
  have hone : 1 < wordRange := by decide
  refine hall.get_of_heard hij.symm hheard ?_ ?_
  · simp only [List.length_singleton]
  · simpa only [List.length_singleton] using hone

/-- A party that returns from the broadcast in which all compare what they received has
received what every honest party did. -/
theorem Sound.verified_agree
    (hinj : Set.InjOn Blake3.hash {bs | s.Hashed honest p t phase contribute bs})
    (hp : ∀ i, p i = (openWith (Player.numbered i) phase (contribute i) finish).run)
    (hn : n < wordRange) (hij : i ≠ j) {v v' : α} {r r' : Bytes32}
    {all all' : List (List Bytes32)}
    (h : s.Passed p t i (verified (Player.numbered i) phase (contribute i)).run (.ok (v, r, all)))
    (h' : s.Passed p t j (Interaction.committed (Player.numbered j) phase (contribute j)).run
      (.ok (v', r', all'))) : all' = all := by
  have hreceived := h.committed_of_verified
  obtain ⟨f, log, rest, w, -, hlog, hm, -⟩ := h
  obtain ⟨-, -, l, l', rfl, hall, hcompared⟩ := Succeeds.of_verified (hc i) hm
  obtain ⟨k, k', hlog', hall', hfirst⟩ := h'.committed (hp j) (hc j)
  have hji := hs.keeps j hj i hi
  have hij' := hs.keeps i hi j hj
  rw [hlog, hlog', List.append_assoc] at hji hij'
  have hone : 1 < wordRange := by decide
  refine Compared.agree hn hij ?_ ?_ hall hcompared hall' (fun h => hfirst h i hij) hji hij' ?_
  · simp only [List.length_singleton]
  · simpa only [List.length_singleton] using hone
  -- Lists of one digest have one encoding, which tells what they are.
  intro hmany list hlist list' hlist' hhash
  have hbytes := hinj (.received hj hmany h' hlist) (.received hi hmany hreceived hlist') hhash
  have hread := congrArg (Wire.read? (α := List Bytes32)) hbytes
  have hlen : list.length = 1 := hall'.length_of_mem hlist
  have hlen' : list'.length = 1 := hall.length_of_mem hlist'
  rw [Wire.read_encode_list list (hlen ▸ hone), Wire.read_encode_list list' (hlen' ▸ hone)] at hread
  exact Option.some.inj hread

variable [LawfulWire α]

/-- What an honest party opens is heard by all honest parties that hear all openings. -/
theorem Sound.opening_heard (hij : i ≠ j) {commitments commitments' : List (List Bytes32)}
    {openings openings' : List (List (α × Bytes32))}
    (h : s.Passed p t i (Interaction.opened (Player.numbered i) phase (contribute i)).run
      (.ok (commitments, openings)))
    (h' : s.Passed p t j (Interaction.opened (Player.numbered j) phase (contribute j)).run
      (.ok (commitments', openings'))) :
    openings[j.val]? = some [(value j, u j 0)] := by
  obtain ⟨f, log, rest, w, -, hlog, hm, -⟩ := h
  obtain ⟨f', log', rest', w', -, hlog', hm', -⟩ := h'
  obtain ⟨l, l', l'', rfl, hall, hcompared, hopenings⟩ := Succeeds.of_opened (hc i) hm
  obtain ⟨k, k', k'', rfl, hall', hcompared', hopenings'⟩ := Succeeds.of_opened (hc j) hm'
  have hkeeps := hs.keeps j hj i hi
  rw [hlog, hlog', List.append_assoc, List.append_assoc, List.append_assoc,
    List.append_assoc] at hkeeps
  have h₁ := (hall.peel hij hall' hkeeps).2
  have h₂ := hcompared.peel hij hcompared' h₁
  have hheard := (hopenings.peel hij hopenings' h₂).1
  exact hopenings.get_of_heard hij.symm hheard rfl (by simp [wordRange])

variable (hinj : Set.InjOn Blake3.hash {bs | s.Hashed honest p t phase contribute bs})

include hinj

/-- Two honest parties that took one commitment of a party found the same value in it. -/
theorem Sound.opening_agree (hij : i ≠ j) {commitments : List (List Bytes32)}
    {openings openings' : List (List (α × Bytes32))} {values values' : List α}
    (h : s.Passed p t i (Interaction.opened (Player.numbered i) phase (contribute i)).run
      (.ok (commitments, openings)))
    (h' : s.Passed p t j (Interaction.opened (Player.numbered j) phase (contribute j)).run
      (.ok (commitments, openings')))
    (hvalues : checkOpenings i 0 (commitments.zip openings) = .ok values)
    (hvalues' : checkOpenings j 0 (commitments.zip openings') = .ok values') {k : Fin n}
    {c : Bytes32} {v v' : α} {r r' : Bytes32} {vs vs' : List (α × Bytes32)}
    (ho : openings[k.val]? = some ((v, r) :: vs)) (ho' : openings'[k.val]? = some ((v', r') :: vs'))
    (hmatch : k = i ∨ opens c (committedBytes v r k))
    (hmatch' : k = j ∨ opens c (committedBytes v' r' k)) : v = v' := by
  -- A party does not check its own opening, but the other one has heard it from the party.
  by_cases hki : k = i
  · subst hki
    rw [(h.opened (hc k)).2.2] at ho
    rw [hs.opening_heard hc hj hi hij.symm h' h] at ho'
    cases ho
    cases ho'
    rfl
  by_cases hkj : k = j
  · subst hkj
    rw [hs.opening_heard hc hi hj hij h h'] at ho
    rw [(h'.opened (hc k)).2.2] at ho'
    cases ho
    cases ho'
    rfl
  · have hopen : commit (committedBytes v r k) = c := eq_of_beq (hmatch.resolve_left hki)
    have hopen' : commit (committedBytes v' r' k) = c := eq_of_beq (hmatch'.resolve_left hkj)
    have hne := Fin.val_ne_of_ne hki
    have hne' := Fin.val_ne_of_ne hkj
    exact committedBytes_inj <| hinj (.opening hi h hvalues hne ho)
      (.opening hj h' hvalues' hne' ho') (hopen.trans hopen'.symm)

/-- Honest parties that get to the end come to the same. -/
theorem Sound.ended_agree
    (hp : ∀ i, p i = (openWith (Player.numbered i) phase (contribute i) finish).run)
    (hn : n < wordRange) {b b' : β} (hr : (s.runners i).program = .done (.ok b))
    (hr' : (s.runners j).program = .done (.ok b')) : b = b' := by
  obtain rfl | hij := eq_or_ne i j
  · cases hr.symm.trans hr'
    rfl
  · obtain ⟨commitments, openings, values, h, hvalues, rfl⟩ := hs.opened hp hi hr
    obtain ⟨commitments', openings', values', h', hvalues', rfl⟩ := hs.opened hp hj hr'
    obtain ⟨v, r, hverified⟩ := h.verified_of_opened
    obtain ⟨v', r', hverified'⟩ := h'.verified_of_opened
    have hcommitments : commitments' = commitments :=
      hs.verified_agree hc hi hj hinj hp hn hij hverified hverified'.committed_of_verified
    subst hcommitments
    obtain ⟨hlen, hlenOpenings, -⟩ := h.opened (hc i)
    obtain ⟨-, hlenOpenings', -⟩ := h'.opened (hc j)
    obtain ⟨hlenValues, hget⟩ := checkOpenings_zip hlen hlenOpenings hvalues
    obtain ⟨hlenValues', hget'⟩ := checkOpenings_zip hlen hlenOpenings' hvalues'
    congr 1
    refine List.ext_getElem (hlenValues.trans hlenValues'.symm) fun a ha ha' => ?_
    obtain ⟨c, cs, v, r, vs, hk, ho, hv, hmatch⟩ := hget ⟨a, hlenValues ▸ ha⟩
    obtain ⟨c', cs', v', r', vs', hk', ho', hv', hmatch'⟩ := hget' ⟨a, hlenValues ▸ ha⟩
    cases hk.symm.trans hk'
    rw [List.getElem?_eq_getElem ha, Option.some.injEq] at hv
    rw [List.getElem?_eq_getElem ha', Option.some.injEq] at hv'
    rw [hv, hv']
    exact hs.opening_agree hc hi hj hinj hij h h' hvalues hvalues' ho ho' hmatch hmatch'

end Agree

end Scene

namespace Scene

theorem Hashed.mono {honest honest' : Finset (Fin n)} (hsub : honest' ⊆ honest)
    {p : Fin n → Protocol β} {t : Fin n → Tape} {s : Scene n β}
    {contribute : Fin n → Interaction α} {bs : Bytes}
    (h : s.Hashed honest' p t phase contribute bs) : s.Hashed honest p t phase contribute bs := by
  cases h with
  | received hi hn h hlist => exact .received (hsub hi) hn h hlist
  | opening hi h hvalues hki hk => exact .opening (hsub hi) h hvalues hki hk

section Everyone

variable {p : Fin n → Protocol (Except Error β)} {t u : Fin n → Tape}
  {s : Scene n (Except Error β)} {contribute : Fin n → Interaction α} {value : Fin n → α}
  {finish : List α → β}

/-- If everybody is honest and gets to the end, the strings that are hashed are those that
the parties commit to and their commitments. -/
theorem Sound.hashed_everyone [LawfulWire α] (hs : s.Sound Finset.univ p t)
    (hp : ∀ i, p i = (openWith (Player.numbered i) phase (contribute i) finish).run)
    (hc : ∀ i, Gives (contribute i) (t i) (value i) (u i))
    {b : β} (hr : ∀ i, (s.runners i).program = .done (.ok b)) {bs : Bytes}
    (h : s.Hashed Finset.univ p t phase contribute bs) :
    ∃ k : Fin n, bs = committedBytes (value k) (u k 0) k ∨
      bs = Wire.encode [commit (committedBytes (value k) (u k 0) k)] := by
  have hopened := fun j => hs.opened hp (Finset.mem_univ j) (hr j)
  cases h with
  | @received i v r all list hi hn h hlist =>
    obtain ⟨a, ha⟩ := List.getElem?_of_mem hlist
    obtain ⟨l, l', hlog, hall, -⟩ := h.committed (hp i) (hc i)
    have han : a < n := hall.length ▸ (List.getElem?_eq_some_iff.mp ha).1
    let j : Fin n := ⟨a, han⟩
    refine ⟨j, .inr ?_⟩
    by_cases hij : i = j
    · subst hij
      cases ha.symm.trans hall.own
      rfl
    · obtain ⟨_, _, _, hopened, -, -⟩ := hopened j
      obtain ⟨_, _, hverified⟩ := hopened.verified_of_opened
      have hheard := hs.commitment_heard hc hi (Finset.mem_univ j) hp hij h
        hverified.committed_of_verified
      cases ha.symm.trans hheard
      rfl
  | @opening i commitments openings values k v r vs hi h hvalues hki hk =>
    obtain ⟨-, hlen, -⟩ := h.opened (hc i)
    have hkn : k < n := hlen ▸ (List.getElem?_eq_some_iff.mp hk).1
    let j : Fin n := ⟨k, hkn⟩
    have hij : i ≠ j := fun h => hki (congrArg Fin.val h).symm
    obtain ⟨_, _, _, h', -, -⟩ := hopened j
    have hheard := hs.opening_heard hc hi (Finset.mem_univ j) hij h h'
    cases hk.symm.trans hheard
    exact ⟨j, .inl rfl⟩

end Everyone

end Scene

theorem Blake3.hash_one_block {bs : Bytes} (h : bs.length ≤ 64) :
    hash bs = Vector.ofFn fun i : Fin 32 => wordByte (wordAt
      (Node.root ⟨initial, words bs, 0, UInt32.ofNat bs.length, chunkStart ||| chunkEnd⟩)
      (i.val / 4)) (i.val % 4) := by
  unfold hash
  rw [tree, if_pos (by omega), chunk, if_pos h]
  rfl

theorem Blake3.hash_two_blocks {bs : Bytes} (h : 64 < bs.length) (h' : bs.length ≤ 128) :
    hash bs = Vector.ofFn fun i : Fin 32 => wordByte (wordAt
      (Node.root ⟨compress initial (words (bs.take 64)) 0 64 chunkStart, words (bs.drop 64), 0,
        UInt32.ofNat (bs.drop 64).length, 0 ||| chunkEnd⟩) (i.val / 4)) (i.val % 4) := by
  have hrest : (bs.drop 64).length ≤ 64 := by
    rw [List.length_drop]
    omega
  unfold hash
  rw [tree, if_pos (by omega), chunk, if_neg (by omega), chunk, if_pos hrest]
  rfl

theorem length_committedBytes (v r : Bytes32) (k : Nat) : (committedBytes v r k).length = 66 := by
  simp [committedBytes, Wire.encode, length_toLittleEndian]

theorem length_encode_digest (d : Bytes32) : (Wire.encode [d]).length = 40 := by
  simp [Wire.encode, length_toLittleEndian]

/-- The first bytes of the digests of what three parties commit to that open zeroes, and of
their commitments. -/
theorem hash_zeroes (k : Fin 3) :
    (Blake3.hash (committedBytes zeroBytes zeroBytes k))[0] = #v[200, 86, 159][k] ∧
      (Blake3.hash (Wire.encode [commit (committedBytes zeroBytes zeroBytes k)]))[0] =
        #v[63, 154, 15][k] := by
  have hlen := length_committedBytes zeroBytes zeroBytes k
  have hlen' := length_encode_digest (commit (committedBytes zeroBytes zeroBytes k))
  rw [Blake3.hash_one_block (by omega : (Wire.encode [commit _]).length ≤ 64), commit,
    Blake3.hash_two_blocks (by omega) (by omega)]
  revert k
  decide +kernel

theorem Scene.Sound.injOn_zeroes {p : Fin 3 → Protocol (Except Error β)} {t u : Fin 3 → Tape}
    {s : Scene 3 (Except Error β)} {contribute : Fin 3 → Interaction Bytes32}
    {finish : List Bytes32 → β} {b : β} (hs : s.Sound Finset.univ p t)
    (hp : ∀ i, p i = (openWith (Player.numbered i) phase (contribute i) finish).run)
    (hc : ∀ i, Gives (contribute i) (t i) zeroBytes (u i)) (hu : ∀ i, u i 0 = zeroBytes)
    (hr : ∀ i, (s.runners i).program = .done (.ok b)) (honest : Finset (Fin 3)) :
    Set.InjOn Blake3.hash {bs | s.Hashed honest p t phase contribute bs} := by
  have hlead : ∀ {bs}, s.Hashed honest p t phase contribute bs → ∃ k : Fin 3,
      bs = committedBytes zeroBytes zeroBytes k ∧ (Blake3.hash bs)[0] = #v[200, 86, 159][k] ∨
      bs = Wire.encode [commit (committedBytes zeroBytes zeroBytes k)] ∧
        (Blake3.hash bs)[0] = #v[63, 154, 15][k] := by
    intro bs h
    obtain ⟨k, rfl | rfl⟩ := hs.hashed_everyone hp hc hr (h.mono (Finset.subset_univ honest))
    · rw [hu]
      exact ⟨k, .inl ⟨rfl, (hash_zeroes k).1⟩⟩
    · rw [hu]
      exact ⟨k, .inr ⟨rfl, (hash_zeroes k).2⟩⟩
  have hne : ∀ k k' : Fin 3, (#v[200, 86, 159] : Vector UInt8 3)[k] ≠ #v[63, 154, 15][k'] := by
    decide
  have hopening : ∀ k k' : Fin 3,
      (#v[200, 86, 159] : Vector UInt8 3)[k] = #v[200, 86, 159][k'] → k = k' := by decide
  have hlist : ∀ k k' : Fin 3,
      (#v[63, 154, 15] : Vector UInt8 3)[k] = #v[63, 154, 15][k'] → k = k' := by decide
  intro bs h bs' h' hhash
  obtain ⟨k, ⟨hbs, hk⟩ | ⟨hbs, hk⟩⟩ := hlead h <;>
    obtain ⟨k', ⟨hbs', hk'⟩ | ⟨hbs', hk'⟩⟩ := hlead h' <;>
    rw [hhash, hk'] at hk
  · rw [hbs, hbs', hopening _ _ hk]
  · exact absurd hk.symm (hne _ _)
  · exact absurd hk (hne _ _)
  · rw [hbs, hbs', hlist _ _ hk]

def openers (phase : String) (value : Fin n → α) : Fin n → Protocol (Except Error (List α)) :=
  fun i => (commitThenOpen (Player.numbered i) phase (value i)).run

def tossers : Fin n → Protocol (Except Error Generator) :=
  fun i => (tossCoins (Player.numbered i)).run

theorem openers_eq (phase : String) (value : Fin n → α) (i : Fin n) :
    openers phase value i = (openWith (Player.numbered i) phase (pure (value i)) id).run :=
  congrArg ExceptT.run (commitThenOpen_eq ..)

theorem tossers_eq (i : Fin n) :
    tossers i = (openWith (Player.numbered i) "RNG" draw fun contributions =>
      Generator.ofKey (contributions.foldl addBits zeroBytes)).run :=
  congrArg ExceptT.run (tossCoins_eq _)

/-- Whatever the other parties do: if an honest party returns from the broadcast in which all
compare what they received, every honest party that is through the first round has received
the same, and honest parties that get to the end have the same values, or toss the same
coins, as long as no two of the strings they hash have one digest. -/
theorem honest_agree [LawfulWire α] (hn : n < wordRange) (capacity : Option Nat)
    (honest : Finset (Fin n)) (phase : String) (value : Fin n → α) (t : Fin n → Tape) :
    (∀ s : Scene n (Except Error (List α)),
      s.Reached capacity honest (openers phase value) t →
      Set.InjOn Blake3.hash
        {bs | s.Hashed honest (openers phase value) t phase (fun i => pure (value i)) bs} →
      (∀ i ∈ honest, ∀ j ∈ honest, i ≠ j → ∀ v v' r r' all all',
        s.Passed (openers phase value) t i
          (verified (Player.numbered i) phase (pure (value i))).run (.ok (v, r, all)) →
        s.Passed (openers phase value) t j
          (committed (Player.numbered j) phase (pure (value j))).run (.ok (v', r', all')) →
        all' = all) ∧
      ∀ i ∈ honest, ∀ j ∈ honest, ∀ values values',
        (s.runners i).program = .done (.ok values) →
        (s.runners j).program = .done (.ok values') → values = values') ∧
    ∀ s : Scene n (Except Error Generator),
      s.Reached capacity honest tossers t →
      Set.InjOn Blake3.hash {bs | s.Hashed honest tossers t "RNG" (fun _ => draw) bs} →
      ∀ i ∈ honest, ∀ j ∈ honest, ∀ g g',
        (s.runners i).program = .done (.ok g) → (s.runners j).program = .done (.ok g') →
        g = g' := by
  refine ⟨fun s hs hinj => ?_, fun s hs hinj i hi j hj g g' hr hr' => ?_⟩
  · have hc : ∀ i, Gives (pure (value i)) (t i) (value i) (t i) := fun i => gives_pure _ _
    refine ⟨fun i hi j hj hij v v' r r' all all' h h' => ?_,
      fun i hi j hj values values' hr hr' => ?_⟩
    · exact hs.sound.verified_agree hc hi hj hinj (openers_eq phase value) hn hij h h'
    · exact hs.sound.ended_agree hc hi hj hinj (openers_eq phase value) hn hr hr'
  · exact hs.sound.ended_agree (fun i => gives_draw (t i)) hi hj hinj tossers_eq hn hr hr'

/-- Three parties open zeroes, or toss coins that show them; nothing binds the last one. -/
theorem honest_agree_three :
    (∃ (s : Scene 3 (Except Error (List Bytes32))) (v v' r r' : Bytes32)
      (all all' : List (List Bytes32)) (values values' : List Bytes32),
      s.Reached none {0, 1} (openers "zero" fun _ => zeroBytes) (fun _ _ => zeroBytes) ∧
      Set.InjOn Blake3.hash {bs | s.Hashed {0, 1} (openers "zero" fun _ => zeroBytes)
        (fun _ _ => zeroBytes) "zero" (fun _ => pure zeroBytes) bs} ∧
      s.Passed (openers "zero" fun _ => zeroBytes) (fun _ _ => zeroBytes) 0
        (verified (Player.numbered (0 : Fin 3)) "zero" (pure zeroBytes)).run (.ok (v, r, all)) ∧
      s.Passed (openers "zero" fun _ => zeroBytes) (fun _ _ => zeroBytes) 1
        (committed (Player.numbered (1 : Fin 3)) "zero" (pure zeroBytes)).run
        (.ok (v', r', all')) ∧
      all' = all ∧
      (s.runners 0).program = .done (.ok values) ∧ (s.runners 1).program = .done (.ok values') ∧
      values = values') ∧
    ∃ (s : Scene 3 (Except Error Generator)) (g g' : Generator),
      s.Reached none {0, 1} tossers (fun _ _ => zeroBytes) ∧
      Set.InjOn Blake3.hash {bs | s.Hashed {0, 1} tossers (fun _ _ => zeroBytes) "RNG"
        (fun _ => draw) bs} ∧
      (s.runners 0).program = .done (.ok g) ∧ (s.runners 1).program = .done (.ok g') ∧
      g = g' := by
  have hn : 3 < wordRange := by decide
  have hcap : (none : Option Nat) ≠ some 0 := by decide
  let zero : Fin 3 → Bytes32 := fun _ => zeroBytes
  let tape : Fin 3 → Tape := fun _ _ => zeroBytes
  have hsub : ({0, 1} : Finset (Fin 3)) ⊆ Finset.univ := Finset.subset_univ _
  have h0 : (0 : Fin 3) ∈ ({0, 1} : Finset (Fin 3)) := by decide
  have h1 : (1 : Fin 3) ∈ ({0, 1} : Finset (Fin 3)) := by decide
  have hagree := honest_agree hn none {0, 1} "zero" zero tape
  constructor
  · obtain ⟨s, hs, hr⟩ := (commitThenOpen_together hcap hn "zero" zero tape).reached
    have hc : ∀ i, Gives (pure (zero i)) (tape i) (zero i) (tape i) := fun i => gives_pure _ _
    have hinj := hs.sound.injOn_zeroes (openers_eq "zero" zero) hc (fun _ => rfl) hr {0, 1}
    replace hs := hs.mono hsub
    obtain ⟨_, _, _, h, -⟩ := hs.sound.opened (openers_eq "zero" zero) h0 (hr 0)
    obtain ⟨_, _, _, h', -⟩ := hs.sound.opened (openers_eq "zero" zero) h1 (hr 1)
    obtain ⟨v, r, hverified⟩ := h.verified_of_opened
    obtain ⟨v', r', hverified'⟩ := h'.verified_of_opened
    have hcommitted := hverified'.committed_of_verified
    obtain ⟨hall, hvalues⟩ := hagree.1 s hs hinj
    exact ⟨s, v, v', r, r', _, _, _, _, hs, hinj, hverified, hcommitted,
      hall 0 h0 1 h1 (by decide) _ _ _ _ _ _ hverified hcommitted, hr 0, hr 1,
      hvalues 0 h0 1 h1 _ _ (hr 0) (hr 1)⟩
  · obtain ⟨s, hs, hr⟩ := (tossCoins_together hcap hn tape).reached
    have hc : ∀ i, Gives draw (tape i) zeroBytes (tape i).tail := fun i => gives_draw _
    have hinj := hs.sound.injOn_zeroes tossers_eq hc (fun _ => rfl) hr {0, 1}
    replace hs := hs.mono hsub
    exact ⟨s, _, _, hs, hinj, hr 0, hr 1, hagree.2 s hs hinj 0 h0 1 h1 _ _ (hr 0) (hr 1)⟩

end AuthShares
