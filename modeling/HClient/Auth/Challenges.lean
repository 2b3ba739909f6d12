import HClient.Auth.Offers
import HClient.Core.Sort

/-!
# The challenge that is answered

The field values of a response, each a list of offers, and the first of the strongest among the
digest challenges that can be answered. A value adds the challenges of its own, whatever the others
are.
-/
namespace HClient.Digest

open HClient.Greatest (keep First foldl_keep)
open HClient.Hsts (Blank IsToken)

/-- The challenge of an offer, where it is a digest one that can be answered. -/
def usable (offer : Offer) : Option Challenge :=
  if offer.1 = "digest".toList then
    match parseOne offer.2 with
    | .ok c => if c.onlyAuthInt then none else some c
    | .error _ => none
  else none

/-- What is read of a field value. -/
def offersIn (v : HeaderValue) : List Offer :=
  match HeaderValue.toStr v with
  | some text => challenges text
  | none => []

def strength (c : Challenge) : Nat := c.algorithm.strength

theorem Search.offer_best (s : Search) (offer : Offer) :
    (s.offer offer).best = (usable offer).toList.foldl (keep strength) s.best := by
  unfold Search.offer usable
  by_cases digest : offer.1 = "digest".toList
  · rw [if_neg (not_not.mpr digest), if_pos digest]
    cases parseOne offer.2 with
    | error e => rfl
    | ok c =>
        cases only : c.onlyAuthInt with
        | true => simp [only]
        | false =>
            cases s.best with
            | none => simp [only, keep]
            | some b =>
                by_cases stronger : b.algorithm.strength < c.algorithm.strength <;>
                  simp [only, keep, strength, stronger]
  · rw [if_pos digest, if_neg digest]
    rfl

theorem Search.offers_best (offers : List Offer) (s : Search) :
    (offers.foldl Search.offer s).best =
      (offers.filterMap usable).foldl (keep strength) s.best := by
  induction offers generalizing s with
  | nil => rfl
  | cons offer offers ih =>
      rw [List.foldl_cons, ih, Search.offer_best]
      cases found : usable offer with
      | none => rw [List.filterMap_cons_none found]; rfl
      | some c => rw [List.filterMap_cons_some found]; rfl

theorem Search.value_eq (s : Search) (v : HeaderValue) :
    s.value v = (offersIn v).foldl Search.offer s := by
  unfold Search.value offersIn
  cases HeaderValue.toStr v <;> rfl

theorem Search.values_eq (values : List HeaderValue) (s : Search) :
    values.foldl Search.value s = (values.flatMap offersIn).foldl Search.offer s := by
  induction values generalizing s with
  | nil => rfl
  | cons v values ih => rw [List.foldl_cons, ih, value_eq, List.flatMap_cons, List.foldl_append]

/-- The first of the strongest that can be answered, or an error where there is none. -/
def Picks (offers : List Offer) (picked : Except DigestError Challenge) : Prop :=
  (offers.filterMap usable = [] ∧ ∃ e, picked = .error e) ∨
    ∃ c, picked = .ok c ∧ First strength (offers.filterMap usable) c

theorem bestChallenge_picks (values : List HeaderValue) :
    Picks (values.flatMap offersIn) (bestChallenge values) := by
  have best := Search.offers_best (values.flatMap offersIn) .start
  rw [← Search.values_eq] at best
  unfold bestChallenge Search.finish
  rw [best]
  cases foldl_keep strength ((values.flatMap offersIn).filterMap usable) with
  | inl none_ =>
      obtain ⟨empty, kept⟩ := none_
      have left : Search.start.best = none := rfl
      rw [left, kept]
      refine .inl ⟨empty, ?_⟩
      dsimp only
      split
      · exact ⟨_, rfl⟩
      · exact ⟨_, rfl⟩
  | inr some_ =>
      obtain ⟨c, kept, first⟩ := some_
      have left : Search.start.best = none := rfl
      rw [left, kept]
      exact .inr ⟨c, rfl, first⟩

/-! ## Field values that are lists of offers -/

/-- The octets of a value, one character each. -/
def contents (v : HeaderValue) : Text := v.map fun b => Char.ofNat b.toNat

/-- Nothing but what `to_str` takes. -/
def Visible (v : HeaderValue) : Prop := ∀ b ∈ v, b = 9 ∨ (32 ≤ b ∧ b < 127)

instance (v : HeaderValue) : Decidable (Visible v) := inferInstanceAs (Decidable (∀ b ∈ v, _))

/-- A field value and the offers it is a list of, with blanks around the list. -/
structure Line where
  value : HeaderValue
  offers : List Offer
  list : Text
  around : ∃ lead trail, contents value = lead ++ (list ++ trail) ∧ Blank lead ∧ Blank trail
  trimmed : list = [] ∨ Runs.Solid Text.isWhitespace list
  listed : Listed OfferWritten offers list

theorem toStr_eq (v : HeaderValue) :
    (Visible v ∧ HeaderValue.toStr v = some (contents v)) ∨
      (¬ Visible v ∧ HeaderValue.toStr v = none) := by
  have all : (v.all fun b => decide (b = 9 ∨ (32 ≤ b ∧ b < 127))) = true ↔ Visible v := by
    simp only [List.all_eq_true, decide_eq_true_eq]
    rfl
  by_cases visible : Visible v
  · exact .inl ⟨visible, if_pos (all.mpr visible)⟩
  · exact .inr ⟨visible, if_neg (mt all.mp visible)⟩

theorem trim_contents (line : Line) : Text.trim (contents line.value) = line.list := by
  obtain ⟨lead, trail, whole, before, behind⟩ := line.around
  have white {s : Text} (blank : Blank s) : ∀ c ∈ s, Text.isWhitespace c = true := by
    intro c member
    rcases blank c member with rfl | rfl <;> decide
  rw [whole]
  cases line.trimmed with
  | inr solid => exact Runs.trim_around solid (white before) (white behind)
  | inl empty =>
      have dropped : (lead ++ ([] ++ trail)).dropWhile Text.isWhitespace = [] := by
        apply List.dropWhile_eq_nil_iff.mpr
        intro c member
        cases List.mem_append.mp member with
        | inl member => exact white before c member
        | inr member => exact white behind c member
      rw [empty, Text.trim, dropped]
      rfl

/-- A list without elements has commas and blanks only. -/
theorem chars_of_empties {open_ : Bool} {t : Text} (rest : Rest true open_ [] [] t) :
    ∀ c ∈ t, c = ' ' ∨ c = '\t' ∨ c = ',' := by
  generalize noParams : ([] : List Param) = ps at rest
  generalize noOffers : ([] : List Offer) = cs at rest
  induction rest with
  | done blank =>
      intro c member
      exact or_assoc.mp (.inl (blank c member))
  | param => cases noParams
  | offer => cases noOffers
  | empty sep _ _ ih =>
      intro c member
      cases List.mem_append.mp member with
      | inr member => exact ih noParams noOffers c member
      | inl member =>
          cases sep with
          | comma before after =>
              cases List.mem_append.mp member with
              | inl member => exact or_assoc.mp (.inl (before c member))
              | inr member =>
                  cases List.mem_cons.mp member with
                  | inl comma => exact .inr (.inr comma)
                  | inr member => exact or_assoc.mp (.inl (after c member))

/-- What `to_str` refuses stands inside an offer. -/
theorem visible_of_empty (line : Line) (empty : line.offers = []) : Visible line.value := by
  obtain ⟨lead, trail, whole, before, behind⟩ := line.around
  have chars : ∀ c ∈ contents line.value, c = ' ' ∨ c = '\t' ∨ c = ',' := by
    intro c member
    rw [whole] at member
    rcases List.mem_append.mp member with member | member
    · exact or_assoc.mp (.inl (before c member))
    rcases List.mem_append.mp member with member | member
    · have row := row_of_listed line.listed
      rw [empty] at row
      cases row with
      | empty _ rest => exact chars_of_empties rest c member
    · exact or_assoc.mp (.inl (behind c member))
  intro b member
  have octet : (Char.ofNat b.toNat).toNat = b.toNat := by
    have valid : b.toNat.isValidChar := .inl (Nat.lt_of_lt_of_le b.toNat_lt (by decide))
    rw [Char.toNat_ofNat, if_pos valid]
  rw [← UInt8.toNat_inj, UInt8.le_iff_toNat_le, UInt8.lt_iff_toNat_lt, ← octet]
  rcases chars _ (List.mem_map_of_mem member) with same | same | same <;> rw [same] <;> decide

/-- Exactly the offers of a value are read where it is visible and no empty element stands in front
of another. -/
theorem offersIn_iff (line : Line) :
    offersIn line.value = line.offers ↔ Visible line.value ∧ Dense line.offers line.list := by
  cases toStr_eq line.value with
  | inl read =>
      have same : offersIn line.value = offersOf line.list := by
        rw [offersIn, read.2]
        simp only [challenges, trim_contents]
        rfl
      rw [same, offersOf_iff (row_of_listed line.listed), and_iff_right read.1]
  | inr refused =>
      constructor
      · intro read
        rw [offersIn, refused.2] at read
        exact absurd (visible_of_empty line read.symm) refused.1
      · rintro ⟨visible, -⟩
        exact absurd visible refused.1

/-- The offers of every value are read and the first of the strongest is picked exactly where the
values are visible and no empty element stands in front of another. And a challenge that can be
answered is not hidden by what other values are. -/
theorem bestChallenge_reads (lines : List Line) (values : List HeaderValue) :
    (((∀ line ∈ lines, offersIn line.value = line.offers) ∧
        Picks (lines.flatMap Line.offers) (bestChallenge (lines.map Line.value))) ↔
      ∀ line ∈ lines, Visible line.value ∧ Dense line.offers line.list) ∧
    ∀ v ∈ values, ∀ c ∈ (offersIn v).filterMap usable,
      ∃ best, bestChallenge values = .ok best ∧ strength c ≤ strength best := by
  constructor
  · constructor
    · rintro ⟨read, -⟩ line member
      exact (offersIn_iff line).mp (read line member)
    · intro well
      have read : ∀ line ∈ lines, offersIn line.value = line.offers := fun line member =>
        (offersIn_iff line).mpr (well line member)
      refine ⟨read, ?_⟩
      have picks := bestChallenge_picks (lines.map Line.value)
      rw [List.flatMap_map, List.flatMap_congr read] at picks
      exact picks
  · intro v member c usable_
    have among : c ∈ (values.flatMap offersIn).filterMap usable := by
      obtain ⟨offer, offered, found⟩ := List.mem_filterMap.mp usable_
      exact List.mem_filterMap.mpr ⟨offer, List.mem_flatMap.mpr ⟨v, member, offered⟩, found⟩
    cases bestChallenge_picks values with
    | inl none_ =>
        rw [none_.1] at among
        cases among
    | inr picked =>
        obtain ⟨best, same, first⟩ := picked
        exact ⟨best, same, first.le c among⟩

theorem realm_written : ParamWritten ("realm".toList, ['r']) "realm=\"r\"".toList :=
  .quoted (isToken_of_all (s := "realm".toList) (by decide))
    (.char (by decide) (by decide) .nil)

theorem nonce_written : ParamWritten ("nonce".toList, ['n']) "nonce=\"n\"".toList :=
  .quoted (isToken_of_all (s := "nonce".toList) (by decide))
    (.char (by decide) (by decide) .nil)

theorem separator_spaced : Separator [',', ' '] :=
  @Separator.comma [] [' '] nofun (by simp [Blank])

theorem isToken_scheme : IsToken "Digest".toList := isToken_of_all (by decide)

theorem spaces_one : Spaces [' '] := ⟨by decide, by simp⟩

/-- A challenge with one comma between its parameters. -/
def denseLine : Line where
  value := HeaderValue.ofAscii "Digest realm=\"r\", nonce=\"n\""
  offers := [("digest".toList, [("realm".toList, ['r']), ("nonce".toList, ['n'])])]
  list := "Digest realm=\"r\", nonce=\"n\"".toList
  around := ⟨[], [], by decide +kernel, nofun, nofun⟩
  trimmed := by
    refine .inr ⟨by decide, ?_, ?_⟩ <;> intro c there <;> cases there <;> decide
  listed :=
    .element (OfferWritten.params isToken_scheme spaces_one
      (.element realm_written (.element separator_spaced nonce_written .done))) .done

/-- The dense challenge is read as it stands, and one without a nonce does not hide another. -/
theorem bestChallenge_reads_beside :
    ((∀ line ∈ [denseLine], offersIn line.value = line.offers) ∧
      Picks denseLine.offers (bestChallenge [denseLine.value])) ∧
    ∃ best,
      bestChallenge [HeaderValue.ofAscii "Digest realm=\"r\"",
        HeaderValue.ofAscii "Digest realm=\"r\", nonce=\"n\", algorithm=SHA-256"] = .ok best ∧
      strength ⟨['r'], ['n'], .sha256, none, false, false, false⟩ ≤ strength best := by
  have dense : Dense denseLine.offers denseLine.list :=
    .offer (.param isToken_scheme spaces_one realm_written)
      (.param separator_spaced nonce_written (.done nofun))
  have visible : Visible denseLine.value := by decide +kernel
  have well : ∀ line ∈ [denseLine], Visible line.value ∧ Dense line.offers line.list := by
    intro line member
    rw [List.mem_singleton.mp member]
    exact ⟨visible, dense⟩
  exact ⟨(bestChallenge_reads [denseLine] []).1.mpr well, (bestChallenge_reads [denseLine] _).2 _
    (List.mem_cons_of_mem _ List.mem_cons_self) _ (by decide +kernel)⟩

/-- A challenge with an empty element between its parameters. -/
def gapLine : Line where
  value := HeaderValue.ofAscii "Digest realm=\"r\",, nonce=\"n\""
  offers := [("digest".toList, [("realm".toList, ['r']), ("nonce".toList, ['n'])])]
  list := "Digest realm=\"r\",, nonce=\"n\"".toList
  around := ⟨[], [], by decide +kernel, nofun, nofun⟩
  trimmed := by
    refine .inr ⟨by decide, ?_, ?_⟩ <;> intro c there <;> cases there <;> decide
  listed := by
    have tight : Separator [','] := @Separator.comma [] [] nofun nofun
    exact .element (OfferWritten.params isToken_scheme spaces_one
      (.element realm_written
        (.empty tight (.element separator_spaced nonce_written .done)))) .done

/-- The parameter behind the empty element is lost, and with it the challenge. -/
theorem gap_unread :
    Visible gapLine.value ∧ (gapLine.offers.filterMap usable).isEmpty = false ∧
      offersIn gapLine.value ≠ gapLine.offers ∧
      bestChallenge [gapLine.value] = .error (.missingParameter "nonce".toList) := by
  decide +kernel

end HClient.Digest
