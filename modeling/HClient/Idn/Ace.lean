import HClient.Core.Segments
import HClient.Idn.Punycode
import HClient.Sansio.Parse

/-!
# A-labels over a conversion

The ASCII form of a name by a conversion that does not fold the case and does not look into an
A-label: what is done around it, and what the answer then is, whatever the conversion does.
-/
namespace HClient.Idn
open Text (toAsciiLowercase stripPrefix)
open Sansio (isForbiddenDomainByte)

/-- The full stops that separate labels. -/
def labelSeparators : List Char :=
  [Char.ofNat 0x2E, Char.ofNat 0x3002, Char.ofNat 0xFF0E, Char.ofNat 0xFF61]

def isLabelSeparator (c : Char) : Bool := labelSeparators.contains c

def acePrefix : Text := "xn--".toList

/-- One label, decoded if it is an A-label. -/
def decodeAceLabel (label : Text) : Run Text :=
  match (stripPrefix acePrefix label).filter fun _ => label.isAscii with
  | some payload => do
      let decoded ← decodePunycode payload
      if decoded.isAscii || decoded.any isLabelSeparator then failure
      else if decoded.any isForbiddenDomainByte then failure
      else pure decoded
  | none => pure label

/-- The labels of a name. -/
def labels (name : Text) : List Text := name.splitOnP isLabelSeparator

def decodeAceLabels (lower : Text) : Run Text := do
  let decoded ← (labels lower).mapM decodeAceLabel
  pure (['.'].intercalate decoded)

/-- The labels of a name beside those of its conversion. -/
def survived : List Text → List Text → Bool
  | [], theirs => theirs.isEmpty
  | _ :: _, [] => false
  | ours :: rest, theirs :: more =>
      if ours.isAscii && ours != theirs then false else survived rest more

def asciiLabelsSurvived (lower ascii : Text) : Bool := survived (labels lower) (ascii.splitOn '.')

def toAsciiOver (convert : Text → Option Text) (domain : Text) : Run Text := do
  let lower := toAsciiLowercase domain
  let unicode ← decodeAceLabels lower
  if unicode.isAscii then pure unicode
  else
    let ascii ← Run.ofOption (convert unicode)
    if ¬ ascii.isAscii || ascii.any isForbiddenDomainByte then failure
    else if ¬ asciiLabelsSurvived lower ascii then failure
    else pure ascii

/-! ## Labels -/

/-- What the form of a label is. -/
structure Form (label form : Text) : Prop where
  plain : label.isAscii = false ∨ stripPrefix acePrefix label = none → form = label
  decoded : label.isAscii = true → ∀ payload, stripPrefix acePrefix label = some payload →
    (decodePunycode payload).run = some (some form) ∧ form.isAscii = false ∧
      form.any isLabelSeparator = false ∧ form.any isForbiddenDomainByte = false

variable {α β : Type} {lower label form : Text}

theorem Run.bind_eq {w : Run α} {f : α → Run β} {b : β} :
    (w >>= f).run = some (some b) ↔ ∃ a, w.run = some (some a) ∧ (f a).run = some (some b) := by
  rw [OptionT.run_bind]
  rcases w.run with _ | _ | a
  · simp [Option.elimM]
  · simp [Option.elimM]
  · simp [Option.elimM]

theorem Run.unless_eq {c : Prop} [Decidable c] {w : Run α} {b : α} :
    (if c then failure else w : Run α).run = some (some b) ↔ ¬ c ∧ w.run = some (some b) := by
  by_cases h : c
  · rw [if_pos h]
    exact iff_of_false nofun (fun both => both.1 h)
  · rw [if_neg h]
    exact (and_iff_right h).symm

theorem decodeAceLabel_form (said : (decodeAceLabel label).run = some (some form)) :
    Form label form := by
  unfold decodeAceLabel at said
  cases ascii : label.isAscii with
  | false =>
      have absent : (stripPrefix acePrefix label).filter (fun _ => label.isAscii) = none := by
        rw [ascii]
        simp
      rw [absent] at said
      cases said
      exact ⟨fun _ => rfl, fun wide => absurd (ascii.symm.trans wide) Bool.false_ne_true⟩
  | true =>
      cases prefixed : stripPrefix acePrefix label with
      | none =>
          rw [prefixed] at said
          cases said
          exact ⟨fun _ => rfl, fun _ payload some => by rw [prefixed] at some; cases some⟩
      | some payload =>
          rw [prefixed, ascii] at said
          obtain ⟨decoded, read, said⟩ := Run.bind_eq.mp said
          obtain ⟨kept, said⟩ := Run.unless_eq.mp said
          obtain ⟨fine, said⟩ := Run.unless_eq.mp said
          cases said
          rw [Bool.or_eq_true, not_or] at kept
          constructor
          · rintro (wide | none)
            · rw [ascii] at wide
              cases wide
            · rw [prefixed] at none
              cases none
          · intro _ payload' same
            rw [prefixed] at same
            cases same
            exact ⟨read, eq_false_of_ne_true kept.1, eq_false_of_ne_true kept.2,
              eq_false_of_ne_true fine⟩

/-- A run over a list comes to the list of what its runs come to. -/
theorem mapM_forall {f : α → Run β} {as : List α} {bs : List β}
    (said : (as.mapM f).run = some (some bs)) :
    List.Forall₂ (fun a b => (f a).run = some (some b)) as bs := by
  induction as generalizing bs with
  | nil =>
      rw [List.mapM_nil] at said
      cases said
      exact .nil
  | cons a as ih =>
      rw [List.mapM_cons] at said
      obtain ⟨b, first, said⟩ := Run.bind_eq.mp said
      obtain ⟨rest, later, said⟩ := Run.bind_eq.mp said
      cases said
      exact .cons first (ih later)

theorem decodeAceLabels_forms {unicode : Text}
    (said : (decodeAceLabels lower).run = some (some unicode)) :
    ∃ forms, List.Forall₂ Form (labels lower) forms ∧ unicode = ['.'].intercalate forms := by
  obtain ⟨forms, decoded, said⟩ := Run.bind_eq.mp said
  cases said
  exact ⟨forms, (mapM_forall decoded).imp fun _ _ => decodeAceLabel_form, rfl⟩

theorem survived_forall {ours theirs : List Text} (same : survived ours theirs = true) :
    List.Forall₂ (fun ours theirs => ours.isAscii = true → theirs = ours) ours theirs := by
  induction ours generalizing theirs with
  | nil =>
      rw [survived, List.isEmpty_iff] at same
      rw [same]
      exact .nil
  | cons first rest ih =>
      cases theirs with
      | nil => cases same
      | cons other more =>
          rw [survived] at same
          split at same
          · cases same
          · rename_i kept
            refine .cons ?_ (ih same)
            intro ascii
            rw [ascii, Bool.true_and, bne_iff_ne, not_not] at kept
            exact kept.symm

theorem isLabelSeparator_toLower (c : Char) : isLabelSeparator c.toLower = isLabelSeparator c := by
  rw [isLabelSeparator, isLabelSeparator, Bool.eq_iff_iff, List.contains_iff_mem,
    List.contains_iff_mem, labelSeparators]
  simp only [List.mem_cons, List.not_mem_nil, or_false]
  rw [Text.toLower_eq_iff (by decide), Text.toLower_eq_iff (by decide),
    Text.toLower_eq_iff (by decide), Text.toLower_eq_iff (by decide)]

theorem length_labels (domain : Text) :
    (labels (toAsciiLowercase domain)).length = (labels domain).length :=
  Segments.length_splitOnP_map isLabelSeparator_toLower domain

theorem labels_clean : ∀ label ∈ labels lower, '.' ∉ label := by
  intro label member there
  have other := Segments.false_of_splitOnP member '.' there
  exact absurd other (by decide)

theorem isAscii_intercalate {forms : List Text}
    (ascii : Text.isAscii (['.'].intercalate forms) = true) :
    ∀ form ∈ forms, form.isAscii = true := by
  cases forms with
  | nil => exact nofun
  | cons first rest =>
      rw [Segments.intercalate_cons, Text.isAscii, List.all_append, Bool.and_eq_true,
        Segments.led, List.all_flatMap] at ascii
      obtain ⟨head, tail⟩ := ascii
      intro form member
      rcases List.mem_cons.mp member with rfl | member
      · exact head
      · have led := List.all_eq_true.mp tail form member
        rw [List.all_cons, Bool.and_eq_true] at led
        exact led.2

/-- Forms that are ASCII are the labels: none of them is an A-label. -/
theorem forms_plain {names forms : List Text} (formed : List.Forall₂ Form names forms)
    (ascii : ∀ form ∈ forms, form.isAscii = true) : forms = names := by
  induction formed with
  | nil => rfl
  | @cons name form names forms first rest ih =>
      obtain ⟨one, more⟩ := List.forall_mem_cons.mp ascii
      rw [ih more]
      congr 1
      cases wide : name.isAscii with
      | false => exact first.plain (.inl wide)
      | true =>
          cases prefixed : stripPrefix acePrefix name with
          | none => exact first.plain (.inr prefixed)
          | some payload =>
              have other := (first.decoded wide payload prefixed).2.1
              rw [one] at other
              cases other

/-! ## Names -/

/-- What an answer says, whatever the conversion does: it is ASCII and has the labels of the name;
one of ASCII stands unchanged, and if it is an A-label it decodes to a form that is none. Where
there is such a form the conversion of the name with the forms gave the answer, and put nothing
into it that a host may not hold. -/
theorem toAsciiOver_stands (convert : Text → Option Text) (domain a : Text)
    (said : (toAsciiOver convert domain).run = some (some a)) :
    a.isAscii = true ∧ (a.splitOn '.').length = (labels domain).length ∧
    ∃ forms, List.Forall₂ Form (labels (toAsciiLowercase domain)) forms ∧
      List.Forall₂ (fun ours theirs => ours.isAscii = true → theirs = ours)
        (labels (toAsciiLowercase domain)) (a.splitOn '.') ∧
      (forms = labels (toAsciiLowercase domain) ∧ a = ['.'].intercalate forms ∨
        convert (['.'].intercalate forms) = some a ∧ a.any isForbiddenDomainByte = false) := by
  unfold toAsciiOver at said
  obtain ⟨unicode, decoded, said⟩ := Run.bind_eq.mp said
  obtain ⟨forms, formed, rfl⟩ := decodeAceLabels_forms decoded
  by_cases ascii : Text.isAscii (['.'].intercalate forms) = true
  · rw [if_pos ascii] at said
    cases said
    have same := forms_plain formed (isAscii_intercalate ascii)
    have whole : (['.'].intercalate forms).splitOn '.' = labels (toAsciiLowercase domain) := by
      rw [same]
      exact List.splitOn_intercalate '.' labels_clean (List.splitOnP_ne_nil _ _)
    refine ⟨ascii, ?_, forms, formed, ?_, .inl ⟨same, rfl⟩⟩
    · rw [whole, length_labels]
    · rw [whole]
      exact List.forall₂_same.mpr fun _ _ _ => rfl
  · rw [if_neg ascii] at said
    obtain ⟨ascii', converted, said⟩ := Run.bind_eq.mp said
    obtain ⟨fine, said⟩ := Run.unless_eq.mp said
    obtain ⟨survived, said⟩ := Run.unless_eq.mp said
    cases said
    have kept := survived_forall (not_not.mp survived)
    rw [Bool.or_eq_true, not_or] at fine
    refine ⟨?_, ?_, forms, formed, kept, .inr ⟨?_, eq_false_of_ne_true fine.2⟩⟩
    · have ascii := fine.1
      simp at ascii
      exact ascii
    · rw [← kept.length_eq, length_labels]
    · cases answer : convert (['.'].intercalate forms) with
      | none =>
          rw [answer] at converted
          cases converted
      | some out =>
          rw [answer] at converted
          cases converted
          rfl

theorem toAsciiOver_stands_folded :
    ("xn--tda".toList.splitOn '.').length = (labels "XN--TDA".toList).length := by
  have payload : (decodePunycode "tda".toList).run = some (some [Char.ofNat 0xFC]) := by decide
  have label : (decodeAceLabel "xn--tda".toList).run = some (some [Char.ofNat 0xFC]) :=
    Run.bind_eq.mpr ⟨_, payload, by decide⟩
  have lower : labels (toAsciiLowercase "XN--TDA".toList) = ["xn--tda".toList] := by decide
  have form : (decodeAceLabels (toAsciiLowercase "XN--TDA".toList)).run =
      some (some [Char.ofNat 0xFC]) := by
    rw [decodeAceLabels, lower, List.mapM_cons]
    exact Run.bind_eq.mpr
      ⟨[[Char.ofNat 0xFC]], Run.bind_eq.mpr ⟨_, label, Run.bind_eq.mpr ⟨[], rfl, rfl⟩⟩, rfl⟩
  exact (toAsciiOver_stands
    (fun name => if name = [Char.ofNat 0xFC] then some "xn--tda".toList else none)
    "XN--TDA".toList "xn--tda".toList (Run.bind_eq.mpr ⟨_, form, by decide⟩)).2.1

/-- An A-label that the conversion made of a label that is none may decode to nothing. -/
theorem conversion_is_trusted :
    ¬ ∀ (convert : Text → Option Text) (domain a : Text),
      (toAsciiOver convert domain).run = some (some a) →
      ∀ label ∈ a.splitOn '.', ∀ payload, stripPrefix acePrefix label = some payload →
        ∃ form, (decodePunycode payload).run = some (some form) ∧ convert form = some label := by
  intro claimed
  obtain ⟨form, decoded, _⟩ := claimed (fun _ => some "xn--zzzz".toList) ['ü'] "xn--zzzz".toList
    (by decide) "xn--zzzz".toList (by decide) "zzzz".toList (by decide)
  have none : (decodePunycode "zzzz".toList).run = some none := by decide
  rw [none] at decoded
  cases decoded

end HClient.Idn
