import HClient.Auth.Offers
import HClient.Core.Words

/-!
# Links

RFC 8288's `Link` as a relation between a field value and its links, and what the client reads: a
rendered list comes back as it is, and at an element that is none the list ends, with what went
before it as it was and at most the link that the element begins with.
-/
namespace HClient.Sansio

open Reading
open HClient.Field (token ows isTokenChar quotedString)
open Hsts (Blank IsToken Written ows_split ows_solid ows_blank token_complete token_none token_sound
  value_sound value_complete written_solid)
open Digest (Separator Tail Listed separator separator_append separator_suffix separator_shrinks
  head_ows ows_append ows_of_solid ows_ows ows_suffix token_suffix)

abbrev LinkParam := Text × Option Text

structure Link where
  target : Text
  rels : List Text
  params : List LinkParam
  deriving DecidableEq, Repr

/-! ## The reader -/

/-- `preceded((ows, '=', ows), alt((quoted_string, token)))`. -/
def paramValue (i : Text) : Option (Text × Text) :=
  match ows i with
  | '=' :: i => quotedString (ows i) <|> token (ows i)
  | _ => none

def linkParam (i : Text) : Option (LinkParam × Text) :=
  (token i).map fun (name, i) =>
    match paramValue i with
    | some (value, i) => ((name.toAsciiLowercase, some value), i)
    | none => ((name.toAsciiLowercase, none), i)

/-- `preceded((ows, ';', ows), link_param)`. -/
def nextLinkParam (i : Text) : Option (LinkParam × Text) :=
  match ows i with
  | ';' :: i => linkParam (ows i)
  | _ => none

/-- A relation parameter's value as the relations that it lists. -/
def relations (value : Text) : List Text :=
  (Runs.words Text.isAsciiWhitespace value).map Text.toAsciiLowercase

/-- The relations of the first `rel`. -/
def relsOf (params : List LinkParam) : List Text :=
  (((params.find? fun p => p.1 = "rel".toList).bind Prod.snd).map relations).getD []

def linkValue (i : Text) : Option (Link × Text) :=
  match i with
  | '<' :: i =>
      match i.dropWhile (· != '>') with
      | _ :: rest =>
          let (params, rest) := many nextLinkParam rest
          some (⟨i.takeWhile (· != '>'), relsOf params, params⟩, rest)
      | [] => none
  | _ => none

/-- `opt(link_value)`. -/
def optLink (i : Text) : Option Link × Text :=
  match linkValue i with
  | some (link, i) => (some link, i)
  | none => (none, i)

/-- A separator and what stands behind it. -/
def nextLink (i : Text) : Option (Option Link × Text) := (separator i).map optLink

/-- `Links::parse_value`. -/
def parseValue (value : Text) : List Link :=
  let (first, i) := optLink (ows value)
  (first :: (many nextLink i).1).filterMap id

/-! ## The grammar -/

/-- `token BWS [ "=" BWS ( token / quoted-string ) ]`. -/
inductive ParamWritten : LinkParam → Text → Prop
  | bare {name : Text} (isToken : IsToken name) : ParamWritten (name.toAsciiLowercase, none) name
  | valued {name before after value written : Text} (isToken : IsToken name) (blank : Blank before)
      (blank' : Blank after) (wrote : Written value written) :
      ParamWritten (name.toAsciiLowercase, some value)
        (name ++ (before ++ '=' :: (after ++ written)))

/-- `*( OWS ";" OWS link-param )`. -/
inductive ParamsWritten : List LinkParam → Text → Prop
  | nil : ParamsWritten [] []
  | cons {p : LinkParam} {ps : List LinkParam} {before after e t : Text} (blank : Blank before)
      (blank' : Blank after) (wrote : ParamWritten p e) (rest : ParamsWritten ps t) :
      ParamsWritten (p :: ps) (before ++ ';' :: (after ++ (e ++ t)))

/-- The relations that parameters give: those of the first `rel`, whatever follows it. -/
inductive Relates : List LinkParam → List Text → Prop
  | absent {ps : List LinkParam} (other : ∀ p ∈ ps, p.1 ≠ "rel".toList) : Relates ps []
  | valueless {before after : List LinkParam} (other : ∀ p ∈ before, p.1 ≠ "rel".toList) :
      Relates (before ++ ("rel".toList, none) :: after) []
  | first {before after : List LinkParam} (other : ∀ p ∈ before, p.1 ≠ "rel".toList)
      (value : Text) :
      Relates (before ++ ("rel".toList, some value) :: after) (relations value)

/-- `"<" URI-Reference ">" *( OWS ";" OWS link-param )`. -/
inductive LinkWritten : Link → Text → Prop
  | mk {target t : Text} {rels : List Text} {ps : List LinkParam} (clean : '>' ∉ target)
      (wrote : ParamsWritten ps t) (relates : Relates ps rels) :
      LinkWritten ⟨target, rels, ps⟩ ('<' :: (target ++ '>' :: t))

variable {i rest s t e sep lead bad : Text} {p : LinkParam} {ps : List LinkParam} {l : Link}
  {ls : List Link} {rels : List Text}

/-! ## Parameters -/

theorem find_rel {before after : List LinkParam} {v : Option Text}
    (other : ∀ p ∈ before, p.1 ≠ "rel".toList) :
    (before ++ ("rel".toList, v) :: after).find? (fun p => p.1 = "rel".toList) =
      some ("rel".toList, v) := by
  have nothing : before.find? (fun p => p.1 = "rel".toList) = none := by
    apply List.find?_eq_none.mpr
    intro p member same
    exact other p member (of_decide_eq_true same)
  rw [List.find?_append, nothing]
  rfl

theorem relates_relsOf (ps : List LinkParam) : Relates ps (relsOf ps) := by
  cases found : ps.find? (fun p => p.1 = "rel".toList) with
  | none =>
      have nothing : relsOf ps = [] := by
        rw [relsOf, found]
        rfl
      rw [nothing]
      refine .absent fun p member same => ?_
      exact List.find?_eq_none.mp found p member (decide_eq_true same)
  | some p =>
      obtain ⟨named, before, after, rfl, others⟩ := List.find?_eq_some_iff_append.mp found
      obtain ⟨name, v⟩ := p
      obtain rfl : name = "rel".toList := of_decide_eq_true named
      have other : ∀ p ∈ before, p.1 ≠ "rel".toList := by
        intro p member same
        have not_rel := others p member
        rw [decide_eq_true same] at not_rel
        cases not_rel
      rw [relsOf, find_rel other]
      cases v with
      | none => exact .valueless other
      | some value => exact .first other value

theorem Relates.eq (relates : Relates ps rels) : rels = relsOf ps := by
  cases relates with
  | absent other =>
      have nothing : ps.find? (fun p => p.1 = "rel".toList) = none := by
        apply List.find?_eq_none.mpr
        intro p member same
        exact other p member (of_decide_eq_true same)
      rw [relsOf, nothing]
      rfl
  | valueless other =>
      rw [relsOf, find_rel other]
      rfl
  | first other value =>
      rw [relsOf, find_rel other]
      rfl

/-- What can stand behind a parameter: the end, or a separator with blanks before it. -/
def ParamEnds (t : Text) : Prop := ∀ c ∈ (ows t).head?, c = ';' ∨ c = ','

theorem paramEnds_of_ends (ends : Digest.Ends t) : ParamEnds t :=
  fun c there => .inr (ends c there)

theorem paramEnds_semicolon (blank : Blank s) (t : Text) : ParamEnds (s ++ ';' :: t) := by
  intro c there
  rw [ows_append blank, ows_of_solid (Runs.forall_head (by decide))] at there
  exact .inl (Option.some.inj there).symm

theorem ParamEnds.not_token (ends : ParamEnds t) : ∀ c ∈ t.head?, isTokenChar c = false := by
  intro c there
  rcases head_ows there with (rfl | rfl) | left
  · decide
  · decide
  · rcases ends c left with rfl | rfl <;> decide

theorem ParamEnds.no_value (ends : ParamEnds t) : paramValue t = none := by
  unfold paramValue
  split
  next rest equals =>
    rw [ParamEnds, equals] at ends
    rcases ends '=' rfl with same | same <;> cases same
  · rfl

theorem linkParam_complete (wrote : ParamWritten p e) (ends : ParamEnds t) :
    linkParam (e ++ t) = some (p, t) := by
  cases wrote with
  | bare isToken =>
      rw [linkParam, token_complete isToken ends.not_token, Option.map_some]
      simp only [ends.no_value]
  | @valued name before after value written isToken blank blank' wrote =>
      have sign : ows ('=' :: (after ++ (written ++ t))) = '=' :: (after ++ (written ++ t)) :=
        ows_of_solid (Runs.forall_head (by decide))
      have stops : ∀ c ∈ (before ++ '=' :: (after ++ (written ++ t))).head?,
          isTokenChar c = false := by
        cases before with
        | nil => exact Runs.forall_head (by decide)
        | cons d before =>
            apply Runs.forall_head
            rcases blank d List.mem_cons_self with rfl | rfl <;> decide
      have read : paramValue (before ++ '=' :: (after ++ (written ++ t))) = some (value, t) := by
        simp only [paramValue, ows_append blank, sign, ows_append blank',
          ows_of_solid (written_solid wrote t)]
        exact value_complete wrote ends.not_token
      simp only [List.append_assoc, List.cons_append]
      rw [linkParam, token_complete isToken stops, Option.map_some]
      simp only [read]

theorem paramValue_sound {value : Text} (taken : paramValue i = some (value, rest)) :
    ∃ before after written, i = before ++ '=' :: (after ++ (written ++ rest)) ∧
      Blank before ∧ Blank after ∧ Written value written := by
  obtain ⟨before, split_, blank⟩ := ows_split i
  unfold paramValue at taken
  split at taken
  next j sign =>
    obtain ⟨after, split', blank'⟩ := ows_split j
    obtain ⟨written, same, wrote⟩ := value_sound taken
    refine ⟨before, after, written, ?_, blank, blank', wrote⟩
    rw [← same, ← split', ← sign, ← split_]
  · cases taken

theorem linkParam_sound (taken : linkParam i = some (p, rest)) :
    ∃ e, i = e ++ rest ∧ ParamWritten p e := by
  obtain ⟨⟨name, j⟩, named, same⟩ := Option.map_eq_some_iff.mp taken
  obtain ⟨rfl, isToken⟩ := token_sound named
  dsimp only at same
  cases read : paramValue j with
  | none =>
      rw [read] at same
      cases same
      exact ⟨name, rfl, .bare isToken⟩
  | some valued =>
      obtain ⟨value, k⟩ := valued
      rw [read] at same
      cases same
      obtain ⟨before, after, written, rfl, blank, blank', wrote⟩ := paramValue_sound read
      refine ⟨_, ?_, .valued isToken blank blank' wrote⟩
      simp only [List.append_assoc, List.cons_append]

theorem nextLinkParam_sound (taken : nextLinkParam i = some (p, rest)) :
    ∃ before after e, i = before ++ ';' :: (after ++ (e ++ rest)) ∧ Blank before ∧ Blank after ∧
      ParamWritten p e := by
  obtain ⟨before, split_, blank⟩ := ows_split i
  unfold nextLinkParam at taken
  split at taken
  next j sign =>
    obtain ⟨after, split', blank'⟩ := ows_split j
    obtain ⟨e, same, wrote⟩ := linkParam_sound taken
    refine ⟨before, after, e, ?_, blank, blank', wrote⟩
    rw [← same, ← split', ← sign, ← split_]
  · cases taken

theorem nextLinkParam_shrinks : Shrinks nextLinkParam := by
  intro i p rest taken
  obtain ⟨before, after, e, rfl, -⟩ := nextLinkParam_sound taken
  simp only [List.length_append, List.length_cons]
  omega

theorem many_params (wrote : ParamsWritten ps s) (ends : Digest.Ends t) :
    many nextLinkParam (s ++ t) = (ps, t) := by
  have following : ∀ {ps : List LinkParam} {s : Text}, ParamsWritten ps s → ParamEnds (s ++ t) := by
    intro ps s wrote
    cases wrote with
    | nil => exact paramEnds_of_ends ends
    | cons blank blank' wrote rest =>
        rw [List.append_assoc]
        exact paramEnds_semicolon blank _
  induction wrote with
  | nil =>
      apply many_none
      unfold nextLinkParam
      rw [List.nil_append]
      split
      next rest sign =>
        rw [Digest.Ends, sign] at ends
        cases ends ';' rfl
      · rfl
  | @cons p ps before after e s blank blank' wrote rest ih =>
      have sign : ows (';' :: (after ++ (e ++ (s ++ t)))) = ';' :: (after ++ (e ++ (s ++ t))) :=
        ows_of_solid (Runs.forall_head (by decide))
      have solid : ∀ c ∈ (e ++ (s ++ t)).head?, ¬ (c = ' ' ∨ c = '\t') := by
        cases wrote with
        | bare isToken => exact written_solid (.token isToken) _
        | valued isToken blank blank' wrote =>
            rw [List.append_assoc]
            exact written_solid (.token isToken) _
      have taken : nextLinkParam (before ++ ';' :: (after ++ (e ++ (s ++ t)))) =
          some (p, s ++ t) := by
        simp only [nextLinkParam, ows_append blank, sign, ows_append blank', ows_of_solid solid]
        exact linkParam_complete wrote (following rest)
      simp only [List.append_assoc, List.cons_append]
      rw [many_some nextLinkParam_shrinks taken, ih]

theorem many_params_sound {i rest : Text} (taken : many nextLinkParam i = (ps, rest)) :
    ∃ s, i = s ++ rest ∧ ParamsWritten ps s := by
  have sound : Sound nextLinkParam fun p s => ∃ before after e,
      s = before ++ ';' :: (after ++ e) ∧ Blank before ∧ Blank after ∧ ParamWritten p e := by
    intro i p rest taken
    obtain ⟨before, after, e, rfl, blank, blank', wrote⟩ := nextLinkParam_sound taken
    refine ⟨_, ?_, before, after, e, rfl, blank, blank', wrote⟩
    simp only [List.append_assoc, List.cons_append]
  obtain ⟨s, same, repeated⟩ := many_sound sound taken
  refine ⟨s, same, ?_⟩
  clear same taken
  induction repeated with
  | nil => exact .nil
  | cons first _ ih =>
      obtain ⟨before, after, e, rfl, blank, blank', wrote⟩ := first
      simp only [List.append_assoc, List.cons_append]
      exact .cons blank blank' wrote ih

/-! ## Links -/

theorem linkValue_complete (wrote : LinkWritten l e) (ends : Digest.Ends t) :
    linkValue (e ++ t) = some (l, t) := by
  cases wrote with
  | @mk target s rels ps clean wrote relates =>
      have inside : ∀ c ∈ target, (c != '>') = true := fun c member =>
        bne_iff_ne.mpr fun same => clean (same ▸ member)
      have closes : ∀ c ∈ ('>' :: (s ++ t)).head?, (c != '>') = false :=
        Runs.forall_head (bne_self_eq_false _)
      simp only [List.cons_append, List.append_assoc, linkValue, Runs.dropWhile_run inside closes,
        Runs.takeWhile_run inside closes, many_params wrote ends, relates.eq]

theorem linkValue_sound (taken : linkValue i = some (l, rest)) :
    ∃ e, i = e ++ rest ∧ LinkWritten l e := by
  unfold linkValue at taken
  split at taken
  next j =>
    split at taken
    next c k cut =>
      have closing : (c != '>') = false := Runs.dropWhile_ends _ j c (by rw [cut]; rfl)
      obtain rfl : c = '>' := of_not_not fun other => by
        rw [bne_iff_ne.mpr other] at closing
        cases closing
      obtain ⟨s, same, wrote⟩ := many_params_sound (rfl : many nextLinkParam k = (_, _))
      cases taken
      have whole : j = j.takeWhile (· != '>') ++ '>' :: k := by
        rw [← cut, List.takeWhile_append_dropWhile]
      have clean : '>' ∉ j.takeWhile (· != '>') := by
        intro there
        exact absurd (List.mem_takeWhile_imp there) (by decide)
      refine ⟨_, ?_, .mk clean wrote (relates_relsOf _)⟩
      conv_lhs => rw [whole, same]
      simp only [List.cons_append, List.append_assoc]
    · cases taken
  · cases taken

theorem LinkWritten.solid (wrote : LinkWritten l e) (t : Text) :
    ∀ c ∈ (e ++ t).head?, ¬ (c = ' ' ∨ c = '\t') := by
  cases wrote with
  | mk clean wrote relates => exact Runs.forall_head (by decide)

theorem linkValue_ends (ends : Digest.Ends t) : linkValue (ows t) = none := by
  unfold linkValue
  split
  next rest opening =>
    rw [Digest.Ends, opening] at ends
    cases ends '<' rfl
  · rfl

theorem optLink_written (wrote : LinkWritten l e) (ends : Digest.Ends t) :
    optLink (e ++ t) = (some l, t) := by
  rw [optLink, linkValue_complete wrote ends]

theorem optLink_ends (ends : Digest.Ends t) : optLink (ows t) = (none, ows t) := by
  rw [optLink, linkValue_ends ends]

theorem optLink_suffix (i : Text) : (optLink i).2 <:+ i := by
  unfold optLink
  split
  next link rest taken =>
    obtain ⟨e, same, -⟩ := linkValue_sound taken
    exact ⟨e, same.symm⟩
  · exact List.suffix_rfl

theorem nextLink_shrinks : Shrinks nextLink := by
  intro i l rest taken
  obtain ⟨j, found, same⟩ := Option.map_eq_some_iff.mp taken
  have behind := optLink_suffix j
  rw [same] at behind
  exact Nat.lt_of_le_of_lt behind.length_le (separator_shrinks found)

/-- The links behind an element. -/
def linksBehind (i : Text) : List Link := (many nextLink i).1.filterMap id

theorem linksBehind_some {first : Option Link} (taken : nextLink i = some (first, rest)) :
    linksBehind i = first.toList ++ linksBehind rest := by
  rw [linksBehind, many_some nextLink_shrinks taken]
  cases first <;> rfl

theorem linksBehind_none (stops : separator i = none) : linksBehind i = [] := by
  have nothing : nextLink i = none := by rw [nextLink, stops, Option.map_none]
  rw [linksBehind, many_none nothing]
  rfl

theorem separator_ows (i : Text) : separator (ows i) = separator i := by
  rw [separator, separator, ows_ows]

theorem linksBehind_ows (i : Text) : linksBehind (ows i) = linksBehind i := by
  cases next : separator i with
  | none => rw [linksBehind_none next, linksBehind_none ((separator_ows i).trans next)]
  | some j =>
      have taken : nextLink i = some (optLink j) := by rw [nextLink, next, Option.map_some]
      have taken' : nextLink (ows i) = some (optLink j) := by
        rw [nextLink, separator_ows, next, Option.map_some]
      rw [linksBehind_some taken, linksBehind_some taken']

theorem parseValue_eq (value : Text) : parseValue value =
    (optLink (ows value)).1.toList ++ linksBehind (optLink (ows value)).2 := by
  unfold parseValue linksBehind
  dsimp only
  cases (optLink (ows value)).1 <;> rfl

theorem linksBehind_separator (sep_ : Separator sep) (rest : Text) :
    linksBehind (sep ++ rest) = parseValue rest := by
  have taken : nextLink (sep ++ rest) = some ((optLink (ows rest)).1, (optLink (ows rest)).2) := by
    rw [nextLink, separator_append sep_, Option.map_some]
  rw [linksBehind_some taken, parseValue_eq]

theorem linksBehind_blank (blank : Blank s) : linksBehind s = [] := by
  apply linksBehind_none
  have nothing : ows s = [] := by
    rw [← List.append_nil s, ows_append blank]
    rfl
  rw [separator, nothing]

/-! ## The list -/

/-- The elements behind the first are read one by one. -/
theorem linksBehind_tail (tail : Tail LinkWritten ls s) (ends : Digest.Ends t) :
    Digest.Ends (s ++ t) ∧ linksBehind (s ++ t) = ls ++ linksBehind t := by
  induction tail with
  | done => exact ⟨ends, rfl⟩
  | empty sep_ _ ih =>
      rw [List.append_assoc]
      refine ⟨sep_.ends _, ?_⟩
      rw [linksBehind_separator sep_, parseValue_eq, optLink_ends ih.1, linksBehind_ows, ih.2]
      rfl
  | element sep_ wrote _ ih =>
      rw [List.append_assoc, List.append_assoc]
      refine ⟨sep_.ends _, ?_⟩
      rw [linksBehind_separator sep_, parseValue_eq, ows_of_solid (wrote.solid _),
        optLink_written wrote ih.1, ih.2]
      rfl

theorem parseValue_listed (blank : Blank lead) (listed : Listed LinkWritten ls s)
    (ends : Digest.Ends t) : parseValue (lead ++ (s ++ t)) = ls ++ linksBehind t := by
  rw [parseValue_eq, ows_append blank]
  cases listed with
  | empty tail =>
      have read := linksBehind_tail tail ends
      rw [optLink_ends read.1, linksBehind_ows, read.2]
      rfl
  | element wrote tail =>
      have read := linksBehind_tail tail ends
      rw [List.append_assoc, ows_of_solid (wrote.solid _), optLink_written wrote read.1, read.2]
      rfl

/-- A list of links and a value that renders it. -/
inductive Rendered : List Link → Text → Prop
  | mk {ls : List Link} {lead s trail : Text} (blank : Blank lead)
      (listed : Listed LinkWritten ls s) (blank' : Blank trail) :
      Rendered ls (lead ++ (s ++ trail))

/-- The links of what stands in front of an element, up to it. -/
inductive Front : List Link → Text → Prop
  | start : Front [] []
  | listed {ls : List Link} {lead s sep : Text} (blank : Blank lead)
      (listed : Listed LinkWritten ls s) (sep_ : Separator sep) : Front ls (lead ++ (s ++ sep))

/-- No element stands in front: neither an empty one nor a link. -/
structure Malformed (bad : Text) : Prop where
  occupied : ¬ Digest.Ends bad
  unlinked : ∀ l e t, ows bad = e ++ t → LinkWritten l e → ¬ Digest.Ends t

theorem Rendered.read {value : Text} (rendered : Rendered ls value) : parseValue value = ls := by
  cases rendered with
  | mk blank listed blank' =>
      rw [parseValue_listed blank listed (Digest.ends_blank blank'), linksBehind_blank blank',
        List.append_nil]

theorem Front.read {front : Text} (stands : Front ls front) (rest : Text) :
    parseValue (front ++ rest) = ls ++ parseValue rest := by
  cases stands with
  | start => rfl
  | listed blank listed sep_ =>
      rw [List.append_assoc, List.append_assoc, parseValue_listed blank listed (sep_.ends rest),
        linksBehind_separator sep_]

theorem separator_none (occupied : ¬ Digest.Ends t) : separator t = none := by
  unfold separator
  split
  next rest comma =>
    refine absurd ?_ occupied
    rw [Digest.Ends, comma]
    exact Runs.forall_head rfl
  · rfl

/-- At most the link that it begins with is read of what is malformed, and nothing behind it. -/
theorem Malformed.read (malformed : Malformed bad) : parseValue bad = [] ∨
    ∃ l e t, ows bad = e ++ t ∧ LinkWritten l e ∧ parseValue bad = [l] := by
  rw [parseValue_eq]
  cases taken : linkValue (ows bad) with
  | none =>
      have unread : optLink (ows bad) = (none, ows bad) := by rw [optLink, taken]
      rw [unread, linksBehind_ows, linksBehind_none (separator_none malformed.occupied)]
      exact .inl rfl
  | some read =>
      obtain ⟨l, rest⟩ := read
      obtain ⟨e, same, wrote⟩ := linkValue_sound taken
      have read : optLink (ows bad) = (some l, rest) := by rw [optLink, taken]
      have stops := separator_none (malformed.unlinked l e rest same wrote)
      rw [read, linksBehind_none stops]
      exact .inr ⟨l, e, rest, same, wrote, rfl⟩

/-! ## Every value -/

/-- A value is a rendered list, or it is malformed behind some of it. -/
def Decomposed (value : Text) : Prop :=
  (∃ ls, Rendered ls value) ∨ ∃ ls front bad, Front ls front ∧ value = front ++ bad ∧ Malformed bad

theorem tail_of_listed (sep_ : Separator sep) (listed : Listed LinkWritten ls s) :
    Tail LinkWritten ls (sep ++ s) := by
  cases listed with
  | empty tail => exact .empty sep_ tail
  | element wrote tail => exact .element sep_ wrote tail

/-- Behind an element the rest of the value decomposes in turn. -/
theorem decomposed_behind {first : List Link}
    (extend : ∀ {ls s}, Tail LinkWritten ls s → Listed LinkWritten (first ++ ls) (e ++ s))
    (blank : Blank lead) (ends : Digest.Ends t)
    (later : ∀ before rest, t = before ++ ',' :: rest → Decomposed rest) :
    Decomposed (lead ++ (e ++ t)) := by
  obtain ⟨before, split_, blank'⟩ := ows_split t
  cases behind : ows t with
  | nil =>
      rw [behind, List.append_nil] at split_
      rw [split_]
      have whole := Rendered.mk blank (extend .done) blank'
      rw [List.append_nil e] at whole
      exact .inl ⟨_, whole⟩
  | cons c rest =>
      obtain rfl : c = ',' := ends c (by rw [behind]; rfl)
      rw [behind] at split_
      have joined : ∀ {gap}, Blank gap → Separator (before ++ ',' :: gap) := .comma blank'
      rcases later before rest split_ with ⟨ls, rendered⟩ | ⟨ls, front, bad, stands, same, malformed⟩
      · cases rendered with
        | mk gap listed trail =>
            have whole := Rendered.mk blank (extend (tail_of_listed (joined gap) listed)) trail
            refine .inl ⟨first ++ ls, ?_⟩
            rw [split_]
            simpa only [List.append_assoc, List.cons_append] using whole
      · cases stands with
        | start =>
            have whole := Front.listed blank (extend .done) (@joined [] (List.forall_mem_nil _))
            refine .inr ⟨_, _, bad, whole, ?_, malformed⟩
            rw [split_, same]
            simp only [List.append_assoc, List.cons_append, List.nil_append]
        | listed gap listed sep_ =>
            have whole := Front.listed blank (extend (tail_of_listed (joined gap) listed)) sep_
            refine .inr ⟨_, _, bad, whole, ?_, malformed⟩
            rw [split_, same]
            simp only [List.append_assoc, List.cons_append]

theorem decomposed (value : Text) : Decomposed value := by
  induction size : value.length using Nat.strong_induction_on generalizing value with
  | _ n ih =>
      obtain ⟨lead, split_, blank⟩ := ows_split value
      by_cases ends : Digest.Ends value
      · -- an empty element stands in front
        have behind := @decomposed_behind value [] [] [] (fun tail => .empty tail)
          (List.forall_mem_nil _) ends
        refine behind fun before rest same => ih rest.length ?_ rest rfl
        rw [← size, same, List.length_append, List.length_cons]
        omega
      by_cases linked : ∃ l e t, ows value = e ++ t ∧ LinkWritten l e ∧ Digest.Ends t
      · obtain ⟨l, e, t, same, wrote, ends'⟩ := linked
        have behind := @decomposed_behind t e lead [l] (fun tail => .element wrote tail) blank ends'
        rw [split_, same]
        refine behind fun before rest same' => ih rest.length ?_ rest rfl
        rw [← size, split_, same, same', List.length_append, List.length_append, List.length_append,
          List.length_cons]
        omega
      · refine .inr ⟨[], [], value, .start, rfl, ends, ?_⟩
        intro l e t same wrote ends'
        exact linked ⟨l, e, t, same, wrote, ends'⟩

/-- A rendered list is read as it is. Whatever stands behind an element, what is read of those
before stays; and a value that is no rendered list has a malformed element, of which at most the
link that it begins with is read, with nothing behind it. -/
theorem parseValue_reads (value : Text) :
    (∀ ls, Rendered ls value → parseValue value = ls) ∧
    (∀ ls front rest, Front ls front → value = front ++ rest →
      parseValue value = ls ++ parseValue rest) ∧
    ((∃ ls, Rendered ls value) ∨ ∃ ls front bad, Front ls front ∧ value = front ++ bad ∧
      Malformed bad ∧ (parseValue bad = [] ∨
        ∃ l e t, ows bad = e ++ t ∧ LinkWritten l e ∧ parseValue bad = [l])) := by
  refine ⟨fun ls rendered => rendered.read, ?_, ?_⟩
  · rintro ls front rest stands rfl
    exact stands.read rest
  · rcases decomposed value with rendered | ⟨ls, front, bad, stands, same, malformed⟩
    · exact .inl rendered
    · exact .inr ⟨ls, front, bad, stands, same, malformed, malformed.read⟩

/-- What is taken of a link does not end an element. -/
theorem malformed_of_read (occupied : ¬ Digest.Ends bad) (read : linkValue (ows bad) = some (l, rest))
    (open_ : ¬ Digest.Ends rest) : Malformed bad := by
  refine ⟨occupied, ?_⟩
  intro l' e t same wrote ends
  rw [same, linkValue_complete wrote ends] at read
  cases read
  exact open_ ends

/-- The second element is no link, and the link that it begins with is read all the same. -/
theorem malformed_is_kept :
    Front [⟨"/a".toList, ["next".toList], [("rel".toList, some "next".toList)]⟩]
        "</a>; rel=next, ".toList ∧
      Malformed "</b> junk, </c>".toList ∧
      parseValue ("</a>; rel=next, ".toList ++ "</b> junk, </c>".toList) =
        [⟨"/a".toList, ["next".toList], [("rel".toList, some "next".toList)]⟩,
          ⟨"/b".toList, [], []⟩] := by
  refine ⟨?_, ?_, by decide +kernel⟩
  · have name : IsToken "rel".toList := Digest.isToken_of_all (by decide)
    have value : IsToken "next".toList := Digest.isToken_of_all (by decide)
    have none : Blank [] := List.forall_mem_nil _
    have param := @ParamWritten.valued _ [] [] _ _ name none none (.token value)
    have params := @ParamsWritten.cons _ _ [] [' '] _ _ none (by simp [Blank]) param .nil
    have relates := relates_relsOf [("rel".toList, some "next".toList)]
    have link := @LinkWritten.mk "/a".toList _ _ _ (by decide) params relates
    have sep_ := @Separator.comma [] [' '] none (by simp [Blank])
    exact @Front.listed _ [] _ _ none (.element link .done) sep_
  · refine @malformed_of_read " junk, </c>".toList _ ⟨"/b".toList, [], []⟩ ?_ ?_ ?_
    · exact fun ends => absurd (ends '<' (by decide)) (by decide)
    · decide +kernel
    · exact fun ends => absurd (ends 'j' (by decide)) (by decide)

end HClient.Sansio
