import HClient.Cookies.Persist
import HClient.Cookies.Scope

/-!
# The pairs of a `Cookie` header

The header is a concatenation without escapes. It comes apart into the pairs it was made of
where no name holds an `=` and neither a name nor a value holds `; `: the parser sees to
that, and what a record brings is checked for control characters only.
-/
namespace HClient.Cookies

open Effect CookieJar

section Pieces
variable {α : Type} {a b : α}

theorem not_infix_tail {x : α} {p : List α} (clean : ¬ [a, b] <:+: x :: p) :
    ¬ [a, b] <:+: p := fun h => clean (h.trans (List.suffix_cons x p).isInfix)

theorem not_infix_head {x y : α} {p : List α} (clean : ¬ [a, b] <:+: x :: y :: p) :
    ¬ (x = a ∧ y = b) := by
  intro h
  obtain ⟨rfl, rfl⟩ := h
  exact clean ⟨[], p, rfl⟩

theorem infix_cons_of_ne {x : α} {q : List α} (other : x ≠ a) (h : [a, b] <:+: x :: q) :
    [a, b] <:+: q := by
  rcases List.infix_cons_iff.mp h with here | later
  · exact absurd (List.cons_prefix_cons.mp here).1.symm other
  · exact later

/-- An occurrence in a list with `c` in its middle is on one side of it. -/
theorem infix_append_cons {c : α} (first : c ≠ a) (second : c ≠ b) (p q : List α)
    (h : [a, b] <:+: p ++ c :: q) : [a, b] <:+: p ∨ [a, b] <:+: q := by
  induction p with
  | nil => exact .inr (infix_cons_of_ne first h)
  | cons x p ih =>
      rcases List.infix_cons_iff.mp h with here | later
      · have starts := List.cons_prefix_cons.mp here
        cases p with
        | nil => exact absurd (List.cons_prefix_cons.mp starts.2).1.symm second
        | cons y p =>
            have continues := List.cons_prefix_cons.mp starts.2
            rw [← starts.1, ← continues.1]
            exact .inl ⟨[], p, rfl⟩
      · rcases ih later with before | after
        · exact .inl (before.trans (List.suffix_cons x p).isInfix)
        · exact .inr after

theorem mem_intercalate {sep : List α} {x : α} {ps : List (List α)}
    (member : x ∈ List.intercalate sep ps) : x ∈ sep ∨ ∃ p ∈ ps, x ∈ p := by
  induction ps with
  | nil => cases member
  | cons p ps ih =>
      cases ps with
      | nil => exact .inr ⟨p, List.mem_cons_self, by simpa using member⟩
      | cons q qs =>
          rw [List.intercalate_cons_cons, List.append_assoc] at member
          rcases List.mem_append.mp member with here | later
          · exact .inr ⟨p, List.mem_cons_self, here⟩
          rcases List.mem_append.mp later with between | rest
          · exact .inl between
          · obtain inSep | ⟨r, there, inPiece⟩ := ih rest
            · exact .inl inSep
            · exact .inr ⟨r, List.mem_cons_of_mem p there, inPiece⟩

variable [DecidableEq α]

/-- What stands between the occurrences of `a` and then `b`. -/
def piecesAt (a b : α) : List α → List (List α)
  | [] => [[]]
  | [x] => [[x]]
  | x :: y :: rest =>
      if x = a ∧ y = b then [] :: piecesAt a b rest
      else (piecesAt a b (y :: rest)).modifyHead (x :: ·)

theorem piecesAt_clean (p : List α) (clean : ¬ [a, b] <:+: p) : piecesAt a b p = [p] := by
  induction p with
  | nil => rfl
  | cons x p ih =>
      cases p with
      | nil => rfl
      | cons y p =>
          rw [piecesAt, if_neg (not_infix_head clean), ih (not_infix_tail clean)]
          rfl

theorem piecesAt_append (distinct : a ≠ b) (p rest : List α) (clean : ¬ [a, b] <:+: p) :
    piecesAt a b (p ++ a :: b :: rest) = p :: piecesAt a b rest := by
  induction p with
  | nil => simp [piecesAt]
  | cons x p ih =>
      have later := ih (not_infix_tail clean)
      cases p with
      | nil =>
          have apart : ¬ (x = a ∧ a = b) := fun h => distinct h.2
          rw [List.singleton_append, piecesAt, if_neg apart]
          rw [List.nil_append] at later
          rw [later]
          rfl
      | cons y p =>
          rw [List.cons_append, List.cons_append, piecesAt, if_neg (not_infix_head clean),
            ← List.cons_append, later]
          rfl

/-- Splitting undoes joining. -/
theorem piecesAt_intercalate (distinct : a ≠ b) (ps : List (List α)) (some : ps ≠ [])
    (clean : ∀ p ∈ ps, ¬ [a, b] <:+: p) :
    piecesAt a b (List.intercalate [a, b] ps) = ps := by
  induction ps with
  | nil => exact absurd rfl some
  | cons p ps ih =>
      have first := clean p List.mem_cons_self
      cases ps with
      | nil => simpa using piecesAt_clean p first
      | cons q qs =>
          have later := ih (List.cons_ne_nil q qs) fun r member =>
            clean r (List.mem_cons_of_mem p member)
          have joined : List.intercalate [a, b] (p :: q :: qs) =
              p ++ a :: b :: List.intercalate [a, b] (q :: qs) := by
            rw [List.intercalate_cons_cons, List.append_assoc]
            rfl
          rw [joined, piecesAt_append distinct p _ first, later]

end Pieces

/-- A piece of the header cut at its first `=`. -/
def pairOf (piece : List UInt8) : List UInt8 × List UInt8 :=
  (piece.takeWhile (· ≠ 61), (piece.dropWhile (· ≠ 61)).drop 1)

theorem pairOf_append {name : List UInt8} (value : List UInt8) (clean : 61 ∉ name) :
    pairOf (name ++ 61 :: value) = (name, value) := by
  have all : ∀ b ∈ name, decide (b ≠ 61) = true := by
    intro b member
    exact decide_eq_true fun same => clean (same ▸ member)
  rw [pairOf, List.takeWhile_append_of_pos all, List.dropWhile_append_of_pos all]
  simp

/-- What the splitting relies on. -/
def Separable (name value : Text) : Prop :=
  61 ∉ utf8Bytes name ∧ ¬ [59, 32] <:+: utf8Bytes name ∧ ¬ [59, 32] <:+: utf8Bytes value

instance (name value : Text) : Decidable (Separable name value) :=
  inferInstanceAs (Decidable (_ ∧ _ ∧ _))

/-- A cookie that a header can carry so that it is read back. -/
structure Legible (c : Cookie) : Prop where
  separable : Separable c.name c.value
  noControl : (utf8Bytes c.name ++ utf8Bytes c.value).any isCtl = false

theorem Legible.same (c d : Cookie) (same : SameCookie c d) (legible : Legible d) :
    Legible c := by
  obtain ⟨separable, noControl⟩ := legible
  constructor
  · simpa only [same.name, same.value] using separable
  · simpa only [same.name, same.value] using noControl

def pieceOf (c : Cookie) : List UInt8 := utf8Bytes c.name ++ 61 :: utf8Bytes c.value

theorem Legible.piece {c : Cookie} (legible : Legible c) : ¬ [59, 32] <:+: pieceOf c := by
  intro h
  rcases infix_append_cons (by decide) (by decide) _ _ h with inName | inValue
  · exact legible.separable.2.1 inName
  · exact legible.separable.2.2 inValue

/-- The header of legible cookies comes apart into their pairs. -/
theorem split_headerBytes {cookies : List Cookie} (some : cookies ≠ [])
    (legible : ∀ c ∈ cookies, Legible c) :
    (piecesAt 59 32 (headerBytes cookies)).map pairOf =
      cookies.map fun c => (utf8Bytes c.name, utf8Bytes c.value) := by
  have pieces : piecesAt 59 32 (headerBytes cookies) = cookies.map pieceOf := by
    refine piecesAt_intercalate (by decide) _ (by simpa using some) ?_
    intro p member
    obtain ⟨c, there, rfl⟩ := List.mem_map.mp member
    exact (legible c there).piece
  rw [pieces, List.map_map]
  refine List.map_congr_left fun c there => ?_
  exact pairOf_append _ (legible c there).separable.1

/-! What each way into the jar sees to. -/

theorem utf8Bytes_of_fromUtf8 {bytes : List UInt8} {t : Text}
    (decoded : Bytes.fromUtf8 bytes = some t) : utf8Bytes t = bytes := by
  obtain ⟨chars, found, rfl⟩ := Option.map_eq_some_iff.mp decoded
  have valid : bytes.toByteArray.utf8Decode?.isSome := by simp [found]
  have encoded := ByteArray.utf8Encode_get_utf8Decode? (h := valid)
  simp only [found, Option.get_some] at encoded
  have data := congrArg (fun b : ByteArray => b.data.toList) encoded
  simpa [List.utf8Encode, utf8Bytes] using data

theorem mem_of_mem_trim {b : UInt8} {s : List UInt8} (member : b ∈ trim s) : b ∈ s := by
  have kept := List.dropWhile_subset _ (List.mem_reverse.mp member)
  exact List.dropWhile_subset _ (List.mem_reverse.mp kept)

theorem not_mem_takeWhile_ne (b : UInt8) (s : List UInt8) : b ∉ s.takeWhile (· ≠ b) := by
  intro member
  simpa using List.mem_takeWhile_imp member

theorem not_infix_of_not_mem {s : List UInt8} (clean : 59 ∉ s) : ¬ [59, 32] <:+: s :=
  fun h => clean (h.subset List.mem_cons_self)

theorem splitOnceOnEquals_clean {pair : List UInt8} (clean : 59 ∉ pair) :
    61 ∉ (splitOnceOnEquals pair).1 ∧ 59 ∉ (splitOnceOnEquals pair).1 ∧
      59 ∉ (splitOnceOnEquals pair).2 := by
  unfold splitOnceOnEquals
  split
  · refine ⟨?_, ?_, ?_⟩
    · exact fun member => not_mem_takeWhile_ne 61 pair (mem_of_mem_trim member)
    · exact fun member => clean (List.takeWhile_subset _ (mem_of_mem_trim member))
    · intro member
      exact clean (List.dropWhile_subset _ (List.mem_of_mem_drop (mem_of_mem_trim member)))
  next without =>
    have absent : 61 ∉ pair := by simpa using without
    exact ⟨fun member => absent (mem_of_mem_trim member),
      fun member => clean (mem_of_mem_trim member), List.not_mem_nil⟩

theorem SetCookie.applyAttribute_pair (out : SetCookie) (key value : List UInt8) :
    (out.applyAttribute key value).name = out.name ∧
      (out.applyAttribute key value).value = out.value := by
  unfold applyAttribute
  simp only
  repeat' split
  all_goals exact ⟨rfl, rfl⟩

theorem SetCookie.applyAttributes_pair (fuel : Nat) (out : SetCookie) (input : List UInt8) :
    (applyAttributes fuel out input).name = out.name ∧
      (applyAttributes fuel out input).value = out.value := by
  induction fuel generalizing out input with
  | zero => exact ⟨rfl, rfl⟩
  | succ fuel ih =>
      unfold applyAttributes
      split
      · exact ⟨rfl, rfl⟩
      · have one := out.applyAttribute_pair (splitOnceOnEquals (segment input).1).1
          (splitOnceOnEquals (segment input).1).2
        have rest := ih (out.applyAttribute (splitOnceOnEquals (segment input).1).1
          (splitOnceOnEquals (segment input).1).2) (segment input).2
        exact ⟨rest.1.trans one.1, rest.2.trans one.2⟩

/-- The parser lets no pair through that a header could not carry. -/
theorem SetCookie.parse_legible {header : List UInt8} {parsed : SetCookie}
    (ok : SetCookie.parse header = .ok parsed) :
    Separable parsed.name parsed.value ∧
      (utf8Bytes parsed.name ++ utf8Bytes parsed.value).any isCtl = false := by
  have noSemicolon : 59 ∉ (segment header).1 := not_mem_takeWhile_ne 59 header
  unfold SetCookie.parse at ok
  generalize segment header = cut at ok noSemicolon
  obtain ⟨pair, input⟩ := cut
  have clean := splitOnceOnEquals_clean noSemicolon
  dsimp only at ok
  split at ok
  · cases ok
  generalize splitOnceOnEquals pair = nameValue at ok clean
  split at ok
  · cases ok
  split at ok
  · cases ok
  next noControl =>
    split at ok
    next name value named valued =>
      cases ok
      have kept := applyAttributes_pair input.length
        ⟨name, value, none, none, none, none, false, false, none⟩ input
      rw [kept.1, kept.2, Separable, utf8Bytes_of_fromUtf8 named, utf8Bytes_of_fromUtf8 valued]
      exact ⟨⟨clean.1, not_infix_of_not_mem clean.2.1, not_infix_of_not_mem clean.2.2⟩,
        Bool.not_eq_true _ ▸ noControl⟩
    · cases ok

/-- A check that refuses was passed where the outcome is a success. -/
theorem ok_of_check {ε α : Type} {p : Prop} [Decidable p] {e : ε} {rest : Except ε α} {a : α}
    (ok : (if p then .error e else rest) = .ok a) : ¬ p ∧ rest = .ok a := by
  split at ok
  · cases ok
  next passed => exact ⟨passed, ok⟩

namespace CookieJar
variable {jar : CookieJar}

theorem prepare_legible {response : Uri} {setCookie : HeaderValue} {now : SystemTime} {c : Cookie}
    (accepted : jar.prepare response setCookie now = .ok c) : Legible c := by
  obtain ⟨-, parsed, parsing, name, value⟩ := prepare_ok accepted
  obtain ⟨separable, noControl⟩ := SetCookie.parse_legible parsing
  rw [← name, ← value] at separable noControl
  exact ⟨separable, noControl⟩

theorem readRecord_ok {record : CookieRecord} {now : SystemTime} {c : Cookie}
    (taken : jar.readRecord record now = .ok (some c)) :
    c.name = record.name ∧ c.value = record.value ∧
      (utf8Bytes record.name ++ utf8Bytes record.value).any isCtl = false := by
  unfold readRecord at taken
  obtain ⟨-, taken⟩ := ok_of_check taken
  obtain ⟨noControl, taken⟩ := ok_of_check taken
  obtain ⟨-, taken⟩ := ok_of_check taken
  obtain ⟨-, taken⟩ := ok_of_check taken
  obtain ⟨-, taken⟩ := ok_of_check taken
  obtain ⟨-, taken⟩ := ok_of_check taken
  split at taken
  · split at taken <;> cases taken
  obtain ⟨-, taken⟩ := ok_of_check taken
  obtain ⟨-, taken⟩ := ok_of_check taken
  -- what is left is the cap and then the expiry, which decide nothing about the pair
  simp only at taken
  split at taken
  all_goals
    split at taken
    · cases taken
    · cases taken
      exact ⟨rfl, rfl, Bool.not_eq_true _ ▸ noControl⟩

theorem cookieHeader_runWith {uri : Uri} {now : SystemTime} {capacity : Capacity} {s : JarState}
    (some : ((matching uri now).runWith (MemoryStore.handle capacity) s).1 ≠ []) :
    ((cookieHeader uri now).runWith (MemoryStore.handle capacity) s).1 =
      headerValueOf
        (headerBytes ((matching uri now).runWith (MemoryStore.handle capacity) s).1) := by
  unfold cookieHeader
  rw [Program.runWith_bind, if_neg some]
  rfl

end CookieJar

theorem printable_of_not_isCtl {b : UInt8} (plain : isCtl b = false) :
    (32 ≤ b ∧ b ≠ 127) ∨ b = 9 := by
  simp only [isCtl, Bool.or_eq_false_iff, decide_eq_false_iff_not, UInt8.le_iff_toNat_le,
    ← UInt8.toNat_inj] at plain
  simp only [ne_eq, UInt8.le_iff_toNat_le, ← UInt8.toNat_inj]
  have low : UInt8.toNat 8 = 8 ∧ UInt8.toNat 10 = 10 ∧ UInt8.toNat 31 = 31 ∧
      UInt8.toNat 127 = 127 ∧ UInt8.toNat 32 = 32 ∧ UInt8.toNat 9 = 9 := by decide
  omega

/-- The header of legible cookies is a header value. -/
theorem headerValueOf_headerBytes {cookies : List Cookie} (legible : ∀ c ∈ cookies, Legible c) :
    headerValueOf (headerBytes cookies) = some (headerBytes cookies) := by
  have printable : (headerBytes cookies).all fun b => (32 ≤ b ∧ b ≠ 127) ∨ b = 9 := by
    rw [List.all_eq_true]
    intro b member
    refine decide_eq_true (printable_of_not_isCtl ?_)
    obtain between | ⟨piece, there, inPiece⟩ := mem_intercalate member
    · have separators : ∀ x ∈ [(59 : UInt8), 32], isCtl x = false := by decide +kernel
      exact separators b between
    · obtain ⟨c, held, rfl⟩ := List.mem_map.mp there
      have noControl := List.any_eq_false.mp (legible c held).noControl
      rcases List.mem_append.mp inPiece with inName | inRest
      · exact Bool.not_eq_true _ ▸ noControl b (List.mem_append_left _ inName)
      rcases List.mem_cons.mp inRest with rfl | inValue
      · rfl
      · exact Bool.not_eq_true _ ▸ noControl b (List.mem_append_right _ inValue)
  rw [headerValueOf, if_pos printable]

/-- What happens to a jar: a call of a request or of a response, or a record coming back. -/
inductive JarWork where
  | call (asked : JarCall)
  | restore (record : CookieRecord) (now : SystemTime)

def JarWork.body (jar : CookieJar) : JarWork → Script Unit
  | .call asked => asked.body jar
  | .restore record now => (jar.restore record now).bind fun _ => pure ()

def workSystem (jar : CookieJar) (capacity : Capacity) :
    System JarWork StoreCall StoreCall.Answer Unit JarState where
  body := JarWork.body jar
  enter _ s := some s
  handle := MemoryStore.handle capacity

/-- A record the jar takes is one whose name and value come apart again. -/
def JarWork.Separate (jar : CookieJar) : JarWork → Prop
  | .call _ => True
  | .restore record now =>
      ∀ c ∈ (jar.readRecord record now).toOption.join, Separable c.name c.value

instance (jar : CookieJar) : (work : JarWork) → Decidable (work.Separate jar)
  | .call _ => .isTrue trivial
  | .restore record now => inferInstanceAs
      (Decidable (∀ c ∈ (jar.readRecord record now).toOption.join, Separable c.name c.value))

theorem insertAs_putsOnly {fine : Cookie → Prop} (kept : ∀ c d, SameCookie c d → fine d → fine c)
    {cookie : Cookie} {now : SystemTime} (ok : fine cookie) :
    (insertAs .record cookie now).Within (PutsOnly fine) fun _ => True := by
  refine Program.Within.bind (Q := fun _ => True) ⟨trivial, fun _ => trivial⟩
    fun (held : List Cookie) _ => ?_
  split
  · exact ⟨kept _ cookie ⟨rfl, rfl, rfl, rfl, rfl, rfl, rfl⟩ ok, fun _ => trivial⟩
  · exact ⟨trivial, fun _ =>
      ⟨kept _ cookie ⟨rfl, rfl, rfl, rfl, rfl, rfl, rfl⟩ ok, fun _ => trivial⟩⟩

/-- Whatever it is told, work of this kind puts legible cookies into the store only. -/
theorem JarWork.body_putsOnly {jar : CookieJar} {work : JarWork} (separate : work.Separate jar) :
    (work.body jar).Within (PutsOnly Legible) fun _ => True := by
  cases work with
  | call asked =>
      refine (asked.body_putsOnly jar).mono ?_ fun _ _ => trivial
      intro op puts
      cases op with
      | put cookie now =>
          obtain ⟨response, setCookie, time, accepted, -, prepared, same⟩ := puts
          exact Legible.same _ _ same (prepare_legible prepared)
      | _ => trivial
  | restore record now =>
      simp only [JarWork.body, CookieJar.restore]
      cases taken : jar.readRecord record now with
      | error e => trivial
      | ok kept =>
        cases kept with
        | none => trivial
        | some cookie =>
            have pair := readRecord_ok taken
            have apart : Separable cookie.name cookie.value :=
              separate cookie (by simp [taken, Except.toOption])
            have legible : Legible cookie := ⟨apart, by rw [pair.1, pair.2.1]; exact pair.2.2⟩
            exact (insertAs_putsOnly Legible.same legible).ignore.ignore

section Runs
variable {ι : Type} [DecidableEq ι] {jar : CookieJar} {capacity : Capacity}

abbrev WorkPool (ι : Type) := Pool ι JarWork StoreCall StoreCall.Answer Unit JarState

def idleJar : WorkPool ι := ⟨JarState.new, fun _ => none⟩

/-- The step starts no work but such as the splitting can rely on. -/
def StartsSeparate (jar : CookieJar) (_ : WorkPool ι) : Label ι JarWork → Prop
  | .start _ work => work.Separate jar
  | .advance _ => True

instance (jar : CookieJar) (s : WorkPool ι) :
    (l : Label ι JarWork) → Decidable (StartsSeparate jar s l)
  | .start _ work => inferInstanceAs (Decidable (work.Separate jar))
  | .advance _ => .isTrue trivial

section Allowed
variable {fine : Cookie → Prop} {ok : WorkPool ι → Label ι JarWork → Prop}
  (alike : ∀ c d, SameCookie c d → fine d → fine c)
  (contains : ∀ s i work, ok s (.start i work) →
    (work.body jar).Within (PutsOnly fine) fun _ => True)
include alike

theorem held_step {s s' : WorkPool ι} {l : Label ι JarWork}
    (contained : System.Contained (PutsOnly fine) s)
    (held : ∀ c, s.shared.store.Holds c → fine c)
    (stepped : (workSystem jar capacity).step s l = some s') :
    ∀ c, s'.shared.store.Holds c → fine c := by
  intro c holds
  obtain ⟨i, work, -, entered⟩ | ⟨op, puts, same⟩ := System.shared_step contained stepped
  · have unchanged : s.shared = s'.shared := Option.some.inj entered
    rw [← unchanged] at holds
    exact held c holds
  · rw [same] at holds
    obtain put | ⟨d, there, same⟩ := holds_handle puts holds
    · exact put
    · exact alike c d same (held d there)

include contains

/-- Where all that is started puts only fine cookies, the jar comes to hold only fine ones. -/
theorem held_run {s : WorkPool ι} {ls : List (Label ι JarWork)}
    (starts : (workSystem jar capacity).Always ok idleJar ls)
    (reached : (workSystem jar capacity).run idleJar ls = some s) :
    ∀ c, s.shared.store.Holds c → fine c := by
  have kept : ∀ (s : WorkPool ι) (l : Label ι JarWork) (s' : WorkPool ι), ok s l →
      System.Contained (PutsOnly fine) s ∧ (∀ c, s.shared.store.Holds c → fine c) →
        (workSystem jar capacity).step s l = some s' →
          System.Contained (PutsOnly fine) s' ∧ ∀ c, s'.shared.store.Holds c → fine c := by
    intro s l s' allowed inv stepped
    refine ⟨System.contained_step inv.1 ?_ stepped, held_step alike inv.1 inv.2 stepped⟩
    intro i work start
    subst start
    exact contains s i work allowed
  refine (System.run_preserves kept starts ⟨?_, ?_⟩ reached).2
  · intro i task there
    cases there
  · intro c holds
    exact absurd holds (Held.not_holds_new c)

end Allowed

/-- Where every record taken back is separable, the header a jar answers comes apart into the
pairs of the cookies that match, in their order. -/
theorem cookieHeader_splits {s : WorkPool ι} {ls : List (Label ι JarWork)}
    (separate : (workSystem jar capacity).Always (StartsSeparate jar) idleJar ls)
    (reached : (workSystem jar capacity).run idleJar ls = some s) (uri : Uri)
    (now : SystemTime)
    (some : ((matching uri now).runWith (MemoryStore.handle capacity) s.shared).1 ≠ []) :
    ∃ bytes, ((cookieHeader uri now).runWith (MemoryStore.handle capacity) s.shared).1 =
        .some bytes ∧
      (piecesAt 59 32 bytes).map pairOf =
        ((matching uri now).runWith (MemoryStore.handle capacity) s.shared).1.map
          fun c => (utf8Bytes c.name, utf8Bytes c.value) := by
  have legible : ∀ c ∈ ((matching uri now).runWith (MemoryStore.handle capacity) s.shared).1,
      Legible c :=
    fun c member => held_run Legible.same (fun _ _ _ fine => JarWork.body_putsOnly fine) separate
      reached c (mem_matching member).1
  refine ⟨_, ?_, split_headerBytes some legible⟩
  rw [cookieHeader_runWith some, headerValueOf_headerBytes legible]

end Runs

/-- A record of `www.example.com` that is good for a minute. -/
def savedFor (name value : String) : CookieRecord :=
  ⟨name.toList, value.toList, "www.example.com".toList, ['/'], .fromUnix 60, .unixEpoch,
    .unixEpoch, true, false, false, none⟩

/-- A response of one host sets a cookie, and then a saved one of another comes back. -/
def setAndRestored (name value : String) : List (Label Nat JarWork) :=
  [.start 0 (.call (.store (httpsUri "api.example.com") (.ofAscii "sid=abc") .unixEpoch)),
    .advance 0, .advance 0, .advance 0,
    .start 1 (.restore (savedFor name value) .unixEpoch),
    .advance 1, .advance 1, .advance 1]

theorem cookieHeader_splits_restored :
    let s := (workSystem ⟨.default, comList⟩ .default).after idleJar
      (setAndRestored "lang" "en=GB")
    let matched := ((matching (httpsUri "www.example.com") .unixEpoch).runWith
      (MemoryStore.handle .default) s.shared).1
    matched.map Cookie.name = ["lang".toList] ∧
      ∃ bytes, ((cookieHeader (httpsUri "www.example.com") .unixEpoch).runWith
          (MemoryStore.handle .default) s.shared).1 = some bytes ∧
        (piecesAt 59 32 bytes).map pairOf =
          matched.map fun c => (utf8Bytes c.name, utf8Bytes c.value) :=
  ⟨by decide +kernel, cookieHeader_splits (by decide +kernel)
    (System.run_eq_after (by decide +kernel)) _ _ (by decide +kernel)⟩

/-- The record loader takes a value that a header cannot carry: one cookie is sent as two. -/
theorem restored_value_is_two_pairs :
    ∃ s, (workSystem ⟨.default, comList⟩ .default).run idleJar
        (setAndRestored "lang" "en; admin=true") = some s ∧
      (((matching (httpsUri "www.example.com") .unixEpoch).runWith
          (MemoryStore.handle .default) s.shared).1.map fun c => (c.name, c.value)) =
        [("lang".toList, "en; admin=true".toList)] ∧
      ∃ bytes, ((cookieHeader (httpsUri "www.example.com") .unixEpoch).runWith
          (MemoryStore.handle .default) s.shared).1 = some bytes ∧
        (piecesAt 59 32 bytes).map pairOf =
          [(Bytes.ascii "lang", Bytes.ascii "en"), (Bytes.ascii "admin", Bytes.ascii "true")] :=
  ⟨_, System.run_eq_after (by decide +kernel), by decide +kernel,
    Bytes.ascii "lang=en; admin=true", by decide +kernel, by decide +kernel⟩

end HClient.Cookies
