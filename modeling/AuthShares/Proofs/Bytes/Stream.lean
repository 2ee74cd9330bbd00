import AuthShares.Proofs.Bytes.Reads
import Mathlib.Data.Option.Basic

/-!
# Buffers as streams

A stream is what has been taken and what is left. Writing adds to the end of what is left, a read
moves bytes from the front of it over to what has been taken, and going back to the start moves
them all back. Whatever is done to a buffer, its bytes are those that were written since it was
last cleared, its head stands behind the ones that have been taken since it was last at the start,
and every access answers as it does on the stream.
-/

set_option autoImplicit false

namespace AuthShares

open Element

namespace Buffer

inductive Access : Type 1 where
  | room (n : Nat)
  | load (bs : Bytes)
  | clear
  | rewind
  | append (bs : Bytes)
  | close
  | pack {T : Type} [Element T] (len : Option Nat) (x : T)
  | consume (n : Nat)
  | expectTerminator
  | expectEnd
  | unpack (T : Type) [Element T] (len : Option Nat)

inductive Answer : Type 1 where
  | done
  | bytes (bs : Bytes)
  | element (T : Type) (x : T)
  | failed (e : ReadError)

def Answer.of {α : Type} (f : α → Answer) : Except ReadError α → Answer
  | .ok a => f a
  | .error e => failed e

def reading {α : Type} (f : α → Answer) (m : Reader α) (b : Buffer) : Answer × Buffer :=
  (.of f (m.run b).1, (m.run b).2)

namespace Access

def run : Access → Buffer → Option (Answer × Buffer)
  | room n, _ => (withRoom? n).map fun b => (.done, b)
  | load bs, _ => some (.done, ofBytes bs)
  | clear, _ => some (.done, empty)
  | rewind, b => some (.done, b.rewind)
  | append bs, b => some (.done, b.append bs)
  | close, b => some (.done, b.close)
  | pack len x, b => some (.done, Element.pack len x b)
  | consume n, b => some (reading .bytes (Buffer.consume n) b)
  | expectTerminator, b => some (reading (fun _ => .done) Buffer.expectTerminator b)
  | expectEnd, b => some (reading (fun _ => .done) Buffer.expectEnd b)
  | unpack T len, b => some (reading (.element T) (Element.unpack len) b)

def runAll {σ : Type} (step : Access → σ → Option (Answer × σ)) :
    List Access → σ → Option (List Answer × σ)
  | [], s => some ([], s)
  | access :: rest, s =>
    (step access s).bind fun (answer, s) =>
      (runAll step rest s).map fun (answers, s) => (answer :: answers, s)

/-- What has been written since the buffer was last cleared or made anew, after one more access. -/
def writes (written : Bytes) : Access → Bytes
  | room _ | clear => []
  | load bs => bs
  | append bs => written ++ bs
  | close => written ++ [terminator]
  | pack len x => written ++ packed len x
  | rewind | consume _ | expectTerminator | expectEnd | unpack _ _ => written

end Access

/-- What has been taken since the head was last at the start, and what is left. -/
structure Stream where
  taken : Bytes
  rest : Bytes

namespace Stream

def written (s : Stream) : Bytes := s.taken ++ s.rest

def write (s : Stream) (bs : Bytes) : Stream := ⟨s.taken, s.rest ++ bs⟩

def take (s : Stream) (n : Nat) : Stream := ⟨s.taken ++ s.rest.take n, s.rest.drop n⟩

def reads (s : Stream) (n : Nat) (answer : Bytes → Answer) : Answer × Stream :=
  if n ≤ s.rest.length then (answer (s.rest.take n), s.take n)
  else (.failed (.truncated n s.rest.length), s)

def elementOf (T : Type) [Element T] (bs : Bytes) : Answer :=
  if isCanonical (Element.ofBytes bs : T) then .element T (Element.ofBytes bs)
  else .failed .nonCanonical

end Stream

/-- What an access means on a stream. The byte that should be a terminator has been taken also if
it is another one, and so have the bytes of an element that is refused. -/
def Access.means : Access → Stream → Option (Answer × Stream)
  | room n, _ => if hasRoom n 1 then some (.done, ⟨[], []⟩) else none
  | load bs, _ => some (.done, ⟨[], bs⟩)
  | clear, _ => some (.done, ⟨[], []⟩)
  | rewind, s => some (.done, ⟨[], s.written⟩)
  | append bs, s => some (.done, s.write bs)
  | close, s => some (.done, s.write [terminator])
  | pack len x, s => some (.done, s.write (packed len x))
  | consume n, s => some (s.reads n .bytes)
  | expectTerminator, s =>
    match s.rest with
    | [] => some (.failed .missingTerminator, s)
    | c :: _ => some (if c = terminator then .done else .failed .missingTerminator, s.take 1)
  | expectEnd, s =>
    some (if s.rest = [] then .done else .failed (.trailingBytes s.rest.length), s)
  | unpack T len, s =>
    match declaredLength (Element.size T) len with
    | .error e => some (.failed e, s)
    | .ok n => some (s.reads n (Stream.elementOf T))

structure Carries (b : Buffer) (s : Stream) : Prop where
  toBytes : b.toBytes = s.written
  head : b.head = s.taken.length

namespace Carries

variable {b : Buffer} {s : Stream}

theorem head_le (h : Carries b s) : b.head ≤ b.size := by
  have hsize : b.size = b.toBytes.length := rfl
  rw [hsize, h.toBytes, h.head, Stream.written, List.length_append]
  exact Nat.le_add_right _ _

theorem taken (h : Carries b s) : b.toBytes.take b.head = s.taken := by
  rw [h.toBytes, h.head, Stream.written]
  exact List.take_left

theorem unread (h : Carries b s) : b.unread = s.rest := by
  show b.toBytes.drop b.head = _
  rw [h.toBytes, h.head, Stream.written]
  exact List.drop_left

theorem remaining (h : Carries b s) : b.remaining = s.rest.length := by
  rw [← length_unread, h.unread]

theorem of_fresh (bs : Bytes) : Carries (ofBytes bs) ⟨[], bs⟩ := ⟨rfl, rfl⟩

theorem rewind (h : Carries b s) : Carries b.rewind ⟨[], s.written⟩ := ⟨h.toBytes, rfl⟩

theorem append (h : Carries b s) (bs : Bytes) : Carries (b.append bs) (s.write bs) where
  toBytes := by
    have hb : b.data.toList = s.taken ++ s.rest := h.toBytes
    show (b.data.appendList bs).toList = s.taken ++ (s.rest ++ bs)
    simp [hb]
  head := h.head

theorem advance (h : Carries b s) {n : Nat} (hn : n ≤ s.rest.length) :
    Carries (b.advance n) (s.take n) where
  toBytes := by
    show b.toBytes = (s.taken ++ s.rest.take n) ++ s.rest.drop n
    rw [List.append_assoc, List.take_append_drop]
    exact h.toBytes
  head := by
    show b.head + n = (s.taken ++ s.rest.take n).length
    rw [List.length_append, List.length_take_of_le hn, h.head]

end Carries

def Agrees {α : Type 1} (x : α × Buffer) (y : α × Stream) : Prop := x.1 = y.1 ∧ Carries x.2 y.2

theorem reads_agree {b : Buffer} {s : Stream} (h : Carries b s) (n : Nat) {x : Answer}
    (answer : Bytes → Answer) (hx : x = answer (b.unread.take n)) :
    Agrees (if n ≤ b.remaining then (x, b.advance n)
      else (.failed (.truncated n b.remaining), b)) (s.reads n answer) := by
  rw [Stream.reads, h.remaining]
  split
  · rename_i hn
    rw [hx, h.unread]
    exact ⟨rfl, h.advance hn⟩
  · exact ⟨rfl, h⟩

theorem consume_agrees {b : Buffer} {s : Stream} (h : Carries b s) (n : Nat) :
    Agrees (reading .bytes (consume n) b) (s.reads n .bytes) := by
  have hreads := reads_agree h n .bytes rfl
  rw [reading, consume_run]
  split
  · rwa [if_pos ‹_›] at hreads
  · rwa [if_neg ‹_›] at hreads

theorem unpack_agrees {b : Buffer} {s : Stream} (h : Carries b s) {T : Type} [Element T]
    {len : Option Nat} {n : Nat} (hlen : declaredLength (Element.size T) len = .ok n) :
    Agrees (reading (.element T) (Element.unpack len) b) (s.reads n (Stream.elementOf T)) := by
  have hreads := reads_agree h n (Stream.elementOf T) rfl
  rw [reading, Element.unpack_run_of_declared hlen]
  split
  · rw [if_pos ‹_›, Stream.elementOf] at hreads
    split at hreads
    · rwa [if_pos ‹_›]
    · rwa [if_neg ‹_›]
  · rwa [if_neg ‹_›] at hreads

theorem access_agrees {b : Buffer} {s : Stream} (h : Carries b s) (access : Access) :
    Option.Rel Agrees (access.run b) (access.means s) := by
  cases access with
  | room n =>
    rw [Access.run, withRoom?, Access.means]
    split
    · exact .some ⟨rfl, .of_fresh []⟩
    · exact .none
  | load bs => exact .some ⟨rfl, .of_fresh bs⟩
  | clear => exact .some ⟨rfl, .of_fresh []⟩
  | rewind => exact .some ⟨rfl, h.rewind⟩
  | append bs => exact .some ⟨rfl, h.append bs⟩
  | close => exact .some ⟨rfl, h.append [terminator]⟩
  | pack len x => exact .some ⟨rfl, h.append (packed len x)⟩
  | consume n => exact .some (consume_agrees h n)
  | expectTerminator =>
    rw [Access.run, reading, expectTerminator_run, Access.means, h.unread]
    cases hrest : s.rest with
    | nil => exact .some ⟨rfl, h⟩
    | cons c rest =>
      apply Option.Rel.some
      constructor
      · show Answer.of _ (if c = terminator then _ else _) = _
        split <;> rfl
      · apply h.advance
        simp [hrest]
  | expectEnd =>
    rw [Access.run, reading, expectEnd_run, Access.means, h.remaining]
    apply Option.Rel.some
    cases hrest : s.rest with
    | nil => exact ⟨rfl, h⟩
    | cons c rest => exact ⟨rfl, h⟩
  | unpack T len =>
    rw [Access.run, Access.means]
    cases hlen : declaredLength (Element.size T) len with
    | error e =>
      rw [reading, Element.unpack_run_of_refused hlen]
      exact .some ⟨rfl, h⟩
    | ok n => exact .some (unpack_agrees h hlen)

namespace Stream

@[simp] theorem written_take (s : Stream) (n : Nat) : (s.take n).written = s.written := by
  rw [written, take, List.append_assoc, List.take_append_drop, written]

@[simp] theorem written_reads (s : Stream) (n : Nat) (answer : Bytes → Answer) :
    (s.reads n answer).2.written = s.written := by
  unfold reads
  split
  · exact written_take s n
  · rfl

theorem written_write (s : Stream) (bs : Bytes) : (s.write bs).written = s.written ++ bs :=
  (List.append_assoc _ _ _).symm

end Stream

theorem runAll_agrees {b : Buffer} {s : Stream} (h : Carries b s) (accesses : List Access) :
    Option.Rel Agrees (Access.runAll Access.run accesses b)
      (Access.runAll Access.means accesses s) := by
  induction accesses generalizing b s with
  | nil => exact .some ⟨rfl, h⟩
  | cons access rest ih =>
    have hfirst := access_agrees h access
    rw [Access.runAll, Access.runAll]
    generalize access.run b = x at hfirst ⊢
    generalize access.means s = y at hfirst ⊢
    cases hfirst with
    | none => exact .none
    | @some x y hxy =>
      obtain ⟨hanswer, hcarries⟩ := hxy
      have hrest := ih hcarries
      simp only [Option.bind_some, hanswer]
      generalize Access.runAll Access.run rest x.2 = x' at hrest ⊢
      generalize Access.runAll Access.means rest y.2 = y' at hrest ⊢
      cases hrest with
      | none => exact .none
      | some hxy =>
        obtain ⟨hanswers, hcarries⟩ := hxy
        exact .some ⟨congrArg (_ :: ·) hanswers, hcarries⟩

namespace Access

theorem means_eq_none_iff {access : Access} {s : Stream} :
    access.means s = none ↔ ∃ n, access = .room n ∧ ¬ hasRoom n 1 := by
  cases access with
  | room n => simp [means]
  | expectTerminator => cases hrest : s.rest <;> simp [means, hrest]
  | unpack T len => cases hlen : declaredLength (Element.size T) len <;> simp [means, hlen]
  | _ => simp [means]

theorem written_means {access : Access} {s s' : Stream} {answer : Answer}
    (h : access.means s = some (answer, s')) : s'.written = access.writes s.written := by
  cases access with
  | room n =>
    rw [means] at h
    split at h <;> cases h
    rfl
  | load bs | clear | rewind | expectEnd => cases h; rfl
  | append bs | close | pack len x => cases h; exact s.written_write _
  | consume n =>
    have hs : (s.reads n .bytes).2 = s' := congrArg Prod.snd (Option.some.inj h)
    rw [← hs]
    exact s.written_reads n _
  | expectTerminator =>
    rw [means] at h
    split at h <;> cases h
    · rfl
    · exact s.written_take 1
  | unpack T len =>
    rw [means] at h
    split at h
    · cases h
      rfl
    · rename_i n _
      have hs : (s.reads n (Stream.elementOf T)).2 = s' := congrArg Prod.snd (Option.some.inj h)
      rw [← hs]
      exact s.written_reads n _

theorem runAll_means_eq_none_iff {accesses : List Access} {s : Stream} :
    runAll means accesses s = none ↔ ∃ n, room n ∈ accesses ∧ ¬ hasRoom n 1 := by
  induction accesses generalizing s with
  | nil => simp [runAll]
  | cons access rest ih =>
    rw [runAll]
    cases hm : access.means s with
    | none =>
      obtain ⟨n, rfl, hn⟩ := means_eq_none_iff.mp hm
      simp only [Option.bind_none, true_iff]
      exact ⟨n, List.mem_cons_self, hn⟩
    | some x =>
      have hgoes : ¬ ∃ n, access = room n ∧ ¬ hasRoom n 1 := by
        rw [← means_eq_none_iff (s := s), hm]
        exact Option.some_ne_none x
      simp only [Option.bind_some, Option.map_eq_none_iff, ih, List.mem_cons]
      constructor
      · rintro ⟨n, hn, hroom⟩
        exact ⟨n, .inr hn, hroom⟩
      · rintro ⟨n, hn | hn, hroom⟩
        · exact absurd ⟨n, hn.symm, hroom⟩ hgoes
        · exact ⟨n, hn, hroom⟩

theorem written_runAll {accesses : List Access} {s s' : Stream} {answers : List Answer}
    (h : runAll means accesses s = some (answers, s')) :
    s'.written = accesses.foldl writes s.written := by
  induction accesses generalizing s answers with
  | nil =>
    cases h
    rfl
  | cons access rest ih =>
    obtain ⟨⟨answer, s₁⟩, hfirst, hrest⟩ := Option.bind_eq_some_iff.mp h
    obtain ⟨⟨answers', s₂⟩, hrest, heq⟩ := Option.map_eq_some_iff.mp hrest
    cases heq
    rw [ih hrest, written_means hfirst, List.foldl_cons]

end Access

def Refused : ReadError → Prop
  | .truncated _ _ | .lengthTooLarge _ _ => True
  | .missingTerminator | .trailingBytes _ | .nonCanonical => False

theorem eq_of_refused {access : Access} {b b' : Buffer} {e : ReadError} (he : Refused e)
    (h : access.run b = some (.failed e, b')) : b' = b := by
  cases access with
  | room n =>
    obtain ⟨_, _, heq⟩ := Option.map_eq_some_iff.mp h
    cases heq
  | load bs | clear | rewind | append bs | close | pack len x => cases h
  | consume n =>
    rw [Access.run, reading, consume_run] at h
    split at h <;> cases h
    rfl
  | expectTerminator =>
    rw [Access.run, reading, expectTerminator_run] at h
    split at h
    · cases h
      rfl
    · split at h <;> cases h
      exact he.elim
  | expectEnd =>
    rw [Access.run, reading, expectEnd_run] at h
    split at h <;> cases h
    rfl
  | unpack T len =>
    rw [Access.run, reading] at h
    cases hlen : declaredLength (Element.size T) len with
    | error e =>
      rw [Element.unpack_run_of_refused hlen] at h
      cases h
      rfl
    | ok n =>
      rw [Element.unpack_run_of_declared hlen] at h
      split at h
      · split at h <;> cases h
        exact he.elim
      · cases h
        rfl

structure Follows (accesses : List Access) (answers : List Answer) (b : Buffer) : Prop where
  head_le : b.head ≤ b.size
  written : b.toBytes = accesses.foldl Access.writes []
  stream : ∃ s, Access.runAll Access.means accesses ⟨[], []⟩ = some (answers, s) ∧
    b.toBytes.take b.head = s.taken ∧ b.unread = s.rest
  refused (access : Access) (e : ReadError) (b' : Buffer) :
    Refused e → access.run b = some (.failed e, b') → b' = b

/-- Any accesses are carried out as on a stream, unless they ask for room that there cannot be:
the bytes are those that were written, the head is among them, those before it are the ones that
have been taken, and a read that is refused leaves everything as it was. -/
theorem accesses_follow (accesses : List Access) :
    (∃ n, .room n ∈ accesses ∧ ¬ hasRoom n 1) ∧
        Access.runAll Access.run accesses empty = none ∨
    (∀ n, .room n ∈ accesses → hasRoom n 1) ∧
        ∃ answers b, Access.runAll Access.run accesses empty = some (answers, b) ∧
          Follows accesses answers b := by
  have hagree := runAll_agrees (Carries.of_fresh []) accesses
  have hnone := @Access.runAll_means_eq_none_iff accesses ⟨[], []⟩
  have hwritten := @Access.written_runAll accesses ⟨[], []⟩
  change Option.Rel Agrees (Access.runAll Access.run accesses empty) _ at hagree
  generalize Access.runAll Access.run accesses empty = x at hagree ⊢
  generalize hy : Access.runAll Access.means accesses ⟨[], []⟩ = y at hagree hnone hwritten
  cases hagree with
  | none => exact .inl ⟨hnone.mp rfl, rfl⟩
  | @some x y hxy =>
    obtain ⟨hanswers, hcarries⟩ := hxy
    right
    constructor
    · intro n hn
      by_contra hroom
      exact absurd (hnone.mpr ⟨n, hn, hroom⟩) (Option.some_ne_none y)
    · refine ⟨x.1, x.2, rfl, ?_⟩
      constructor
      · exact hcarries.head_le
      · rw [hcarries.toBytes]
        exact hwritten rfl
      · refine ⟨y.2, ?_, hcarries.taken, hcarries.unread⟩
        rw [hy, hanswers]
      · intro access e b' he h
        exact eq_of_refused he h

example : Access.runAll Access.run [.load [1, 2], .consume 3, .expectTerminator] empty =
    some ([.done, .failed (.truncated 3 2), .failed .missingTerminator], ⟨#[1, 2], 1⟩) := rfl

end Buffer

end AuthShares
