import AuthShares.Dealer
import AuthShares.Proofs.Element.Mersenne61

/-!
# What a dealer hands out

Whatever is drawn, the last of the elements that sum to `x` makes up for all others. So the value
shares of a sharing sum to the secret, and the authentications to the key times it, call after call.
The key that is kept is the sum of the shares of the key that were drawn in the beginning, and no
call changes it or them. The queues of masks hold at every position one such sharing, a share in
each.
-/

set_option autoImplicit false

namespace AuthShares

open Element Modular

namespace Dealer

section

variable {T α β : Type} {key : T} {ks : List T}

/-- Whatever the generator gives, the result is as `P` says, and the key and its shares are kept. -/
def Gives (key : T) (ks : List T) (m : StateM (Dealer T) α) (P : α → Prop) : Prop :=
  ∀ g, P (m.run ⟨key, ks, g⟩).1 ∧ (m.run ⟨key, ks, g⟩).2.key = key ∧
    (m.run ⟨key, ks, g⟩).2.keyShares = ks

namespace Gives

theorem pure {P : α → Prop} {a : α} (h : P a) :
    Gives key ks (Pure.pure a : StateM (Dealer T) α) P := fun _ => ⟨h, rfl, rfl⟩

theorem bind {m : StateM (Dealer T) α} {f : α → StateM (Dealer T) β} {P : α → Prop} {Q : β → Prop}
    (hm : Gives key ks m P) (hf : ∀ a, P a → Gives key ks (f a) Q) : Gives key ks (m >>= f) Q := by
  intro g
  obtain ⟨ha, hkey, hks⟩ := hm g
  rw [StateT.run_bind]
  rcases hrun : m.run ⟨key, ks, g⟩ with ⟨a, ⟨key', ks', g'⟩⟩
  rw [hrun] at ha hkey hks
  cases hkey
  cases hks
  exact hf a ha g'

theorem mono {m : StateM (Dealer T) α} {P Q : α → Prop} (hm : Gives key ks m P)
    (h : ∀ a, P a → Q a) : Gives key ks m Q := fun g => ⟨h _ (hm g).1, (hm g).2⟩

theorem get : Gives key ks (MonadState.get : StateM (Dealer T) (Dealer T)) fun d =>
    d.key = key ∧ d.keyShares = ks := fun _ => ⟨⟨rfl, rfl⟩, rfl, rfl⟩

theorem draw {m : StateM Generator α} {P : α → Prop} (h : ∀ g, P (m.run g).1) :
    Gives key ks (Dealer.draw m) P := fun g => ⟨h g, rfl, rfl⟩

end Gives

end

end Dealer

variable {T : Type} [MacElement T]

/-- The same elements, drawn from the sequence `s` instead of a keystream. -/
@[reducible]
def MacElement.drawing (s : Nat → T) : MacElement T :=
  { (inferInstance : MacElement T) with
    random := fun g => (s g.taken, { g with taken := g.taken + 1 }) }

@[reducible]
def Modular.drawing [Modular T] {s : Nat → T} (hs : ∀ k, isCanonical (s k)) :
    @Modular T (MacElement.drawing s) :=
  @Modular.mk T (MacElement.drawing s) (modulus T) rep ofNat rep_lt rep_inj ofNat_canonical rep_ofNat
    zero_eq add_eq sub_eq neg_eq mul_eq (isZero_iff (T := T)) (fun _ => hs _)
    (length_toBytes (T := T)) (ofBytes_toBytes (T := T))

structure Authentic (key x : T) (shares : List (Share T)) : Prop where
  value : total (shares.map Share.value) = x
  mac : total (shares.map Share.mac) = key * x

def popped : Nat → List (Share T) → Except Error (Share T)
  | 0, queue => (nextMask queue).map (·.1)
  | j + 1, queue => nextMask queue >>= fun taken => popped j taken.2

namespace Dealer

inductive Call (T : Type) where
  | share (secret : T)
  | authenticate (values : List T)
  | masks (count : Nat)

inductive Answer (T : Type) where
  | sharing (shares : List (Share T))
  | queues (queues : List (List (Share T)))

namespace Call

def Canonical : Call T → Prop
  | share secret => isCanonical secret
  | authenticate values => ∀ x ∈ values, isCanonical x
  | masks _ => True

def answer : Call T → StateM (Dealer T) (Answer T)
  | share secret => return .sharing (← Dealer.share secret)
  | authenticate values => return .sharing (← Dealer.authenticate values)
  | masks count => return .queues (← Dealer.masks count)

def answerAll : List (Call T) → StateM (Dealer T) (List (Answer T))
  | [] => return []
  | call :: calls => do
    let answer ← call.answer
    let answers ← answerAll calls
    return answer :: answers

end Call

/-- A queue of `count` masks for each of `n` players. Those at one position share one value. -/
structure Masked (n : Nat) (key : T) (count : Nat) (queues : List (List (Share T))) : Prop where
  players : queues.length = n
  lengths : ∀ queue ∈ queues, queue.length = count
  positions : ∀ j < count, ∃ x shares,
    queues.map (popped j) = shares.map .ok ∧ Authentic key x shares

def Answers (n : Nat) (key : T) : Call T → Answer T → Prop
  | .share secret, .sharing shares => shares.length = n ∧ Authentic key secret shares
  | .authenticate values, .sharing shares =>
    shares.map Share.value = values ∧ Authentic key (total values) shares
  | .masks count, .queues queues => Masked n key count queues
  | _, _ => False

/-- A dealer of `n` players gives all calls their answers, and has the same key and the same shares
of it before and after them. -/
structure Serves (n : Nat) (d : Dealer T) (calls : List (Call T)) : Prop where
  players : d.keyShares.length = n
  total_keyShares : total d.keyShares = d.key
  key : ((Call.answerAll calls).run d).2.key = d.key
  keyShares : ((Call.answerAll calls).run d).2.keyShares = d.keyShares
  answers : List.Forall₂ (Answers n d.key) calls ((Call.answerAll calls).run d).1

section

variable [Modular T]

theorem foldl_sub_canonical {x : T} {xs : List T} (hx : isCanonical x)
    (hxs : ∀ y ∈ xs, isCanonical y) : isCanonical (xs.foldl (· - ·) x) := by
  induction xs generalizing x with
  | nil => exact hx
  | cons y xs ih =>
    exact ih (sub_canonical hx (hxs y (by simp))) fun z hz => hxs z (by simp [hz])

theorem residue_foldl_sub {x : T} {xs : List T} (hx : isCanonical x)
    (hxs : ∀ y ∈ xs, isCanonical y) : residue (modulus T) (xs.foldl (· - ·) x) =
      residue (modulus T) x - (xs.map (residue (modulus T))).sum := by
  induction xs generalizing x with
  | nil => simp
  | cons y xs ih =>
    have hy : isCanonical y := hxs y (by simp)
    rw [List.foldl_cons, ih (sub_canonical hx hy) fun z hz => hxs z (by simp [hz]),
      residue_sub dvd_rfl hx hy, List.map_cons, List.sum_cons, sub_sub]

omit [Modular T] in
theorem length_complete (x : T) (xs : List T) : (complete x xs).length = xs.length + 1 := by
  rw [complete, List.length_append, List.length_singleton]

theorem complete_canonical {x : T} {xs : List T} (hx : isCanonical x)
    (hxs : ∀ y ∈ xs, isCanonical y) : ∀ y ∈ complete x xs, isCanonical y := by
  intro y hy
  rcases List.mem_append.mp hy with hy | hy
  · exact hxs y hy
  · exact List.mem_singleton.mp hy ▸ foldl_sub_canonical hx hxs

theorem total_complete {x : T} {xs : List T} (hx : isCanonical x)
    (hxs : ∀ y ∈ xs, isCanonical y) : total (complete x xs) = x := by
  refine eq_of_residue (total_canonical _ (complete_canonical hx hxs)) hx ?_
  rw [complete, total_concat,
    residue_add dvd_rfl (total_canonical xs hxs) (foldl_sub_canonical hx hxs),
    residue_total dvd_rfl xs hxs, residue_foldl_sub hx hxs, add_sub_cancel]

theorem randoms_run (n : Nat) (g : Generator) : (randoms (T := T) n |>.run g).1.length = n ∧
    ∀ x ∈ ((randoms n).run g).1, isCanonical (x : T) := by
  induction n generalizing g with
  | zero => exact ⟨rfl, nofun⟩
  | succ n ih =>
    obtain ⟨hlen, hcan⟩ := ih ((MacElement.random (T := T)).run g).2
    exact ⟨congrArg (· + 1) hlen, List.forall_mem_cons.mpr ⟨random_canonical g, hcan⟩⟩

theorem gives_randoms {key : T} {ks : List T} (n : Nat) :
    Gives key ks (draw (randoms n)) fun xs : List T => xs.length = n ∧ ∀ x ∈ xs, isCanonical x :=
  Gives.draw (randoms_run n)

theorem gives_random {key : T} {ks : List T} :
    Gives key ks (draw MacElement.random) fun x : T => isCanonical x := Gives.draw random_canonical

end

theorem zipWith_left {α β γ : Type} (f : α → γ) {xs : List α} {ys : List β}
    (h : xs.length = ys.length) : List.zipWith (fun x _ => f x) xs ys = xs.map f :=
  List.ext_getElem (by simp [h]) fun k _ _ => by simp

theorem zipWith_right {α β γ : Type} (f : β → γ) {xs : List α} {ys : List β}
    (h : xs.length = ys.length) : List.zipWith (fun _ y => f y) xs ys = ys.map f :=
  List.ext_getElem (by simp [h]) fun k _ _ => by simp

theorem authentic_zipWith {key : T} {values macs : List T} (hlen : values.length = macs.length)
    (hmac : total macs = key * total values) :
    (List.zipWith Share.mk values macs).map Share.value = values ∧
      Authentic key (total values) (List.zipWith Share.mk values macs) := by
  have hvalue : (List.zipWith Share.mk values macs).map Share.value = values :=
    List.map_zipWith.trans ((zipWith_left id hlen).trans (List.map_id _))
  have hmacs : (List.zipWith Share.mk values macs).map Share.mac = macs :=
    List.map_zipWith.trans ((zipWith_right id hlen).trans (List.map_id _))
  exact ⟨hvalue, congrArg total hvalue, hmacs.symm ▸ hmac⟩

theorem Masked.cons {key x : T} {n count : Nat} {shares : List (Share T)}
    {queues : List (List (Share T))} (hlen : shares.length = n) (hshares : Authentic key x shares)
    (h : Masked n key count queues) :
    Masked n key (count + 1) (List.zipWith (· :: ·) shares queues) := by
  have hsame : shares.length = queues.length := hlen.trans h.players.symm
  refine ⟨?_, ?_, fun j hj => ?_⟩
  · rw [List.length_zipWith, hlen, h.players, Nat.min_self]
  · intro queue hqueue
    obtain ⟨k, hk, rfl⟩ := List.getElem_of_mem hqueue
    rw [List.getElem_zipWith]
    exact congrArg (· + 1) (h.lengths _ (List.getElem_mem _))
  · cases j with
    | zero =>
      exact ⟨x, shares, List.map_zipWith.trans (zipWith_left Except.ok hsame), hshares⟩
    | succ j =>
      obtain ⟨y, others, hothers, hauthentic⟩ := h.positions j (Nat.lt_of_succ_lt_succ hj)
      exact ⟨y, others, List.map_zipWith.trans ((zipWith_right (popped j) hsame).trans hothers),
        hauthentic⟩

section

variable [Modular T] {key : T} {ks : List T} (hkey : isCanonical key)
include hkey

theorem gives_authenticate {values : List T} (hvalues : ∀ x ∈ values, isCanonical x) :
    Gives key ks (authenticate values) fun shares =>
      shares.map Share.value = values ∧ Authentic key (total values) shares := by
  have htotal : isCanonical (key * total values) :=
    mul_canonical hkey (total_canonical values hvalues)
  refine Gives.get.bind fun d ⟨hd, _⟩ => (gives_randoms _).bind fun macs ⟨hlen, hmacs⟩ =>
    Gives.pure ?_
  rw [hd]
  cases values with
  | nil =>
    refine ⟨rfl, rfl, eq_of_residue zero_canonical htotal ?_⟩
    show residue _ (0 : T) = residue _ (key * 0)
    rw [residue_mul dvd_rfl hkey zero_canonical, residue_zero dvd_rfl, mul_zero]
  | cons x values =>
    refine authentic_zipWith ?_ (total_complete htotal hmacs)
    rw [length_complete, hlen]
    rfl

theorem gives_share (hpos : 0 < ks.length) {secret : T} (hsecret : isCanonical secret) :
    Gives key ks (share secret) fun shares =>
      shares.length = ks.length ∧ Authentic key secret shares := by
  refine Gives.get.bind fun d ⟨_, hd⟩ => (gives_randoms _).bind fun values ⟨hlen, hvalues⟩ => ?_
  have hshares : Gives key ks _ _ :=
    gives_authenticate hkey (complete_canonical hsecret hvalues)
  rw [total_complete hsecret hvalues] at hshares
  refine hshares.mono fun shares ⟨hvalue, hauthentic⟩ => ⟨?_, hauthentic⟩
  rw [← List.length_map, hvalue, length_complete, hlen, hd]
  omega

theorem gives_masks (hpos : 0 < ks.length) (count : Nat) :
    Gives key ks (masks count) (Masked ks.length key count) := by
  induction count with
  | zero =>
    refine Gives.get.bind fun d ⟨_, hd⟩ => Gives.pure ⟨?_, ?_, nofun⟩
    · rw [List.length_map, hd]
    · simp
  | succ count ih =>
    exact gives_random.bind fun secret hsecret => (gives_share hkey hpos hsecret).bind
      fun shares ⟨hlen, hshares⟩ => ih.bind fun queues hqueues =>
        Gives.pure (hqueues.cons hlen hshares)

/-- No call changes the key or its shares, whatever is drawn for it. -/
theorem gives_answer (hpos : 0 < ks.length) {call : Call T} (hcall : call.Canonical) :
    Gives key ks call.answer (Answers ks.length key call) := by
  cases call with
  | share secret => exact (gives_share hkey hpos hcall).bind fun _ => Gives.pure
  | authenticate values => exact (gives_authenticate hkey hcall).bind fun _ => Gives.pure
  | masks count => exact (gives_masks hkey hpos count).bind fun _ => Gives.pure

theorem gives_answerAll (hpos : 0 < ks.length) {calls : List (Call T)}
    (hcalls : ∀ call ∈ calls, call.Canonical) : Gives key ks (Call.answerAll calls)
      (List.Forall₂ (Answers ks.length key) calls) := by
  induction calls with
  | nil => exact Gives.pure .nil
  | cons call calls ih =>
    obtain ⟨hcall, hrest⟩ := List.forall_mem_cons.mp hcalls
    exact (gives_answer hkey hpos hcall).bind fun _ hanswer => (ih hrest).bind
      fun _ hanswers => Gives.pure (.cons hanswer hanswers)

end

/-- A new dealer has a share of the key for everyone, and the sum of the shares is the key. -/
theorem keyShares_new [Modular T] (n : Nat) (seed : UInt64) :
    (new n seed : Dealer T).keyShares.length = n ∧
      total (new n seed : Dealer T).keyShares = (new n seed : Dealer T).key ∧
      isCanonical (new n seed : Dealer T).key := by
  obtain ⟨hlen, hcanonical⟩ := randoms_run (T := T) n (.ofSeed seed)
  exact ⟨hlen, rfl, total_canonical _ hcanonical⟩

theorem serves_new [Modular T] {n : Nat} (hn : 0 < n) {calls : List (Call T)}
    (hcalls : ∀ call ∈ calls, call.Canonical) (seed : UInt64) : Serves n (new n seed) calls := by
  obtain ⟨hlen, htotal, hcanonical⟩ := keyShares_new (T := T) n seed
  obtain ⟨hanswers, hkey, hshares⟩ := gives_answerAll hcanonical (hlen.symm ▸ hn) hcalls
    (new n seed : Dealer T).generator
  rw [hlen] at hanswers
  exact ⟨hlen, htotal, hkey, hshares, hanswers⟩

/-- For any seed, and even for any sequence of canonical elements in the place of what is drawn, a
dealer answers all calls with authenticated sharings and keeps the key and the shares of it. -/
theorem calls_authentic [Modular T] {n : Nat} (hn : 0 < n) {calls : List (Call T)}
    (hcalls : ∀ call ∈ calls, call.Canonical) : (∀ seed, Serves n (new n seed) calls) ∧
      ∀ s : Nat → T, (∀ k, isCanonical (s k)) → ∀ seed,
        @Serves T (MacElement.drawing s) n (@new T (MacElement.drawing s) n seed) calls :=
  ⟨serves_new hn hcalls, fun s hs seed =>
    @serves_new T (MacElement.drawing s) (Modular.drawing hs) n hn calls hcalls seed⟩

theorem calls_authentic_three : 0 < 3 ∧
    (∀ call ∈ [Call.share (⟨7⟩ : Mersenne61), .authenticate [⟨5⟩], .masks 2], call.Canonical) ∧
    Serves 3 (new 3 1) [Call.share (⟨7⟩ : Mersenne61), .authenticate [⟨5⟩], .masks 2] := by
  have hvalues : (Call.authenticate [(⟨5⟩ : Mersenne61)]).Canonical :=
    List.forall_mem_singleton.mpr rfl
  have hcalls : ∀ call ∈ [Call.share (⟨7⟩ : Mersenne61), .authenticate [⟨5⟩], .masks 2],
      call.Canonical :=
    List.forall_mem_cons.mpr ⟨rfl, List.forall_mem_cons.mpr
      ⟨hvalues, List.forall_mem_singleton.mpr trivial⟩⟩
  exact ⟨by decide, hcalls, (calls_authentic (by decide) hcalls).1 1⟩

end Dealer

end AuthShares
