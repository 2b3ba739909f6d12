import HClient.Core.Bytes
import HClient.Hsts.Store

/-!
# Length-prefixed values

A cursor over bytes that refuses where they run out, the parts the stored values are made of,
and the rule that a part reads back what was written in front of anything else.
-/
namespace HClient

abbrev Reader (α : Type) := StateT (List UInt8) Option α

namespace Reader

open Hsts (toLeBytes fromLeBytes)

variable {α β : Type}

def take (n : Nat) : Reader (List UInt8) := fun bytes =>
  if n ≤ bytes.length then some (bytes.take n, bytes.drop n) else none

/-- An unsigned number of so many bytes. -/
def number (width : Nat) : Reader Nat := do
  let bytes ← take width
  pure (fromLeBytes bytes)

/-- A run of bytes behind its length. -/
def blob (width : Nat) : Reader (List UInt8) := do
  let n ← number width
  take n

def some? (a : Option α) : Reader α := fun bytes => a.map fun a => (a, bytes)

def str (width : Nat) : Reader Text := do
  let bytes ← blob width
  some? (Bytes.fromUtf8 bytes)

/-- Nothing is left. -/
def finished : Reader Unit := fun bytes => if bytes = [] then some ((), []) else none

/-- So many of them, one after another. -/
def times (r : Reader α) : Nat → Reader (List α)
  | 0 => pure []
  | n + 1 => do
      let a ← r
      let rest ← times r n
      pure (a :: rest)

/-- A length that its prefix can say, and the bytes. -/
def writeBlob (width : Nat) (bytes : List UInt8) : Option (List UInt8) :=
  if bytes.length < 256 ^ width then some (toLeBytes width bytes.length ++ bytes) else none

/-- The reader takes these bytes, whatever is behind them, and answers this. -/
def Reads (r : Reader α) (bytes : List UInt8) (a : α) : Prop :=
  ∀ rest, r.run (bytes ++ rest) = some (a, rest)

namespace Reads

theorem pure (a : α) : Reads (Pure.pure a) [] a := fun _ => rfl

theorem bind {r : Reader α} {f : α → Reader β} {first second : List UInt8} {a : α} {b : β}
    (reads : Reads r first a) (then_ : Reads (f a) second b) :
    Reads (r >>= f) (first ++ second) b := by
  intro rest
  rw [List.append_assoc, StateT.run_bind, reads]
  exact then_ rest

theorem take (bytes : List UInt8) : Reads (take bytes.length) bytes bytes := by
  intro rest
  change (if bytes.length ≤ (bytes ++ rest).length then _ else _) = _
  rw [if_pos (by simp), List.take_left, List.drop_left]

theorem some? (a : α) : Reads (Reader.some? (some a)) [] a := fun _ => rfl

theorem number {width n : Nat} (fits : n < 256 ^ width) :
    Reads (number width) (toLeBytes width n) n := by
  have bytes := take (toLeBytes width n)
  rw [Hsts.length_toLeBytes] at bytes
  have whole := bytes.bind (f := fun bytes => Pure.pure (fromLeBytes bytes))
    (pure (fromLeBytes (toLeBytes width n)))
  rw [List.append_nil, Hsts.fromLeBytes_toLeBytes width n fits] at whole
  exact whole

theorem blob {width : Nat} {bytes written : List UInt8}
    (wrote : writeBlob width bytes = some written) : Reads (blob width) written bytes := by
  unfold writeBlob at wrote
  split at wrote
  next fits =>
    cases wrote
    exact (number fits).bind (take bytes)
  next => cases wrote

theorem str {width : Nat} {text : Text} {written : List UInt8}
    (wrote : writeBlob width (text.flatMap String.utf8EncodeChar) = some written) :
    Reads (str width) written text := by
  have decoded : Bytes.fromUtf8 (text.flatMap String.utf8EncodeChar) = some text :=
    Hsts.decode_domain text
  have whole := (blob wrote).bind (f := fun bytes => Reader.some? (Bytes.fromUtf8 bytes))
    (decoded ▸ some? text)
  rw [List.append_nil] at whole
  exact whole

theorem times {r : Reader α} {write : α → Option (List UInt8)} {items : List α}
    {written : List (List UInt8)} (reads : ∀ a ∈ items, ∀ w, write a = some w → Reads r w a)
    (wrote : items.mapM write = some written) :
    Reads (times r items.length) written.flatten items := by
  induction items generalizing written with
  | nil =>
      cases wrote
      exact pure []
  | cons a items ih =>
      rw [List.mapM_cons] at wrote
      obtain ⟨w, first, wrote⟩ := Option.bind_eq_some_iff.mp wrote
      obtain ⟨ws, others, wrote⟩ := Option.bind_eq_some_iff.mp wrote
      cases wrote
      have here := reads a List.mem_cons_self w first
      have later := ih (fun b member => reads b (List.mem_cons_of_mem _ member)) others
      have end_ := later.bind (f := fun rest => Pure.pure (a :: rest)) (pure (a :: items))
      have whole := here.bind
        (f := fun a => Reader.times r items.length >>= fun rest => Pure.pure (a :: rest)) end_
      rw [List.append_nil] at whole
      exact whole

/-- With nothing behind them the reader is done. -/
theorem run_finished {r : Reader α} {bytes : List UInt8} {a : α} (reads : Reads r bytes a) :
    (do let a ← r; finished; Pure.pure a : Reader α).run bytes = some (a, []) := by
  have whole := reads []
  rw [List.append_nil] at whole
  rw [StateT.run_bind, whole]
  rfl

end Reads
end Reader
end HClient

/-!
## What a reader took

The other direction of a length-prefixed value: what a part was read from is what is written
for it.
-/
namespace HClient.Reader

open Hsts (toLeBytes fromLeBytes length_toLeBytes)

variable {α β : Type} {bytes rest : List UInt8}

theorem toLeBytes_fromLeBytes (bytes : List UInt8) :
    toLeBytes bytes.length (fromLeBytes bytes) = bytes := by
  induction bytes with
  | nil => rfl
  | cons b bytes ih =>
      have low := b.toNat_lt
      have first : UInt8.ofNat (b.toNat + 256 * fromLeBytes bytes) = b := by
        rw [← UInt8.toNat_inj, UInt8.toNat_ofNat']
        omega
      have others : (b.toNat + 256 * fromLeBytes bytes) / 256 = fromLeBytes bytes := by omega
      rw [List.length_cons, toLeBytes, fromLeBytes, first, others, ih]

theorem fromLeBytes_lt (bytes : List UInt8) : fromLeBytes bytes < 256 ^ bytes.length := by
  induction bytes with
  | nil => decide
  | cons b bytes ih =>
      have low := b.toNat_lt
      rw [fromLeBytes, List.length_cons, Nat.pow_succ]
      omega

theorem bind_taken {r : Reader α} {f : α → Reader β} {b : β}
    (ran : (r >>= f).run bytes = some (b, rest)) :
    ∃ a middle, r.run bytes = some (a, middle) ∧ (f a).run middle = some (b, rest) := by
  rw [StateT.run_bind] at ran
  obtain ⟨⟨a, middle⟩, first, second⟩ := Option.bind_eq_some_iff.mp ran
  exact ⟨a, middle, first, second⟩

theorem pure_taken {a b : α} (ran : (pure a : Reader α).run bytes = some (b, rest)) :
    a = b ∧ bytes = rest := by
  cases ran
  exact ⟨rfl, rfl⟩

theorem take_taken {n : Nat} {taken : List UInt8} (ran : (take n).run bytes = some (taken, rest)) :
    taken.length = n ∧ bytes = taken ++ rest := by
  change (if n ≤ bytes.length then some (bytes.take n, bytes.drop n) else none) = _ at ran
  split at ran
  next enough =>
    cases ran
    exact ⟨List.length_take_of_le enough, (List.take_append_drop n bytes).symm⟩
  · cases ran

theorem number_taken {width n : Nat} (ran : (number width).run bytes = some (n, rest)) :
    n < 256 ^ width ∧ bytes = toLeBytes width n ++ rest := by
  obtain ⟨taken, middle, first, second⟩ := bind_taken ran
  obtain ⟨wide, rfl⟩ := take_taken first
  obtain ⟨rfl, rfl⟩ := pure_taken second
  rw [← wide, toLeBytes_fromLeBytes]
  exact ⟨fromLeBytes_lt taken, rfl⟩

theorem some?_taken {a : Option α} {b : α} (ran : (some? a).run bytes = some (b, rest)) :
    a = some b ∧ bytes = rest := by
  obtain ⟨c, found, same⟩ := Option.map_eq_some_iff.mp ran
  cases same
  exact ⟨found, rfl⟩

theorem blob_taken {width : Nat} {taken : List UInt8}
    (ran : (blob width).run bytes = some (taken, rest)) :
    ∃ written, writeBlob width taken = some written ∧ bytes = written ++ rest := by
  obtain ⟨n, middle, first, second⟩ := bind_taken ran
  obtain ⟨fits, rfl⟩ := number_taken first
  obtain ⟨rfl, rfl⟩ := take_taken second
  exact ⟨_, if_pos fits, (List.append_assoc ..).symm⟩

theorem str_taken {width : Nat} {text : Text} (ran : (str width).run bytes = some (text, rest)) :
    ∃ written, writeBlob width (text.flatMap String.utf8EncodeChar) = some written ∧
      bytes = written ++ rest := by
  obtain ⟨content, middle, first, second⟩ := bind_taken ran
  obtain ⟨decoded, rfl⟩ := some?_taken second
  obtain ⟨written, wrote, rfl⟩ := blob_taken first
  rw [Bytes.eq_utf8_of_fromUtf8 decoded] at wrote
  exact ⟨written, wrote, rfl⟩

/-- A reader that must leave nothing has taken everything. -/
theorem finished_taken {r : Reader α} {a : α}
    (ran : ((do let a ← r; finished; pure a : Reader α).run bytes).map Prod.fst = some a) :
    r.run bytes = some (a, []) := by
  obtain ⟨⟨b, rest⟩, whole, same⟩ := Option.map_eq_some_iff.mp ran
  obtain ⟨c, middle, first, second⟩ := bind_taken whole
  obtain ⟨u, left, ended, last⟩ := bind_taken second
  obtain ⟨rfl, rfl⟩ := pure_taken last
  cases same
  change (if middle = [] then some ((), []) else none) = _ at ended
  split at ended
  next none_left => rw [first, none_left]
  · cases ended

/-- Where the reader answers, it has taken the front of its input and nothing behind that matters
to the answer. -/
def Settled (r : Reader α) : Prop :=
  ∀ bytes a rest, r.run bytes = some (a, rest) → ∃ taken, bytes = taken ++ rest ∧ Reads r taken a

namespace Settled

theorem pure (a : α) : Settled (Pure.pure a) := by
  intro bytes b rest ran
  obtain ⟨rfl, rfl⟩ := pure_taken ran
  exact ⟨[], rfl, .pure a⟩

theorem bind {r : Reader α} {f : α → Reader β} (first : Settled r) (second : ∀ a, Settled (f a)) :
    Settled (r >>= f) := by
  intro bytes b rest ran
  obtain ⟨a, middle, ranFirst, ranSecond⟩ := bind_taken ran
  obtain ⟨taken, rfl, reads⟩ := first _ _ _ ranFirst
  obtain ⟨taken', rfl, reads'⟩ := second a _ _ _ ranSecond
  exact ⟨taken ++ taken', (List.append_assoc ..).symm, reads.bind reads'⟩

theorem take (n : Nat) : Settled (Reader.take n) := by
  intro bytes a rest ran
  obtain ⟨rfl, rfl⟩ := take_taken ran
  exact ⟨a, rfl, .take a⟩

theorem some? (a : Option α) : Settled (Reader.some? a) := by
  intro bytes b rest ran
  obtain ⟨rfl, rfl⟩ := some?_taken ran
  exact ⟨[], rfl, .some? b⟩

theorem number (width : Nat) : Settled (Reader.number width) := (take width).bind fun _ => pure _

theorem blob (width : Nat) : Settled (Reader.blob width) := (number width).bind take

theorem times {r : Reader α} (settled : Settled r) (n : Nat) : Settled (Reader.times r n) := by
  induction n with
  | zero => exact pure []
  | succ n ih => exact settled.bind fun _ => ih.bind fun _ => pure _

end Settled
end HClient.Reader
