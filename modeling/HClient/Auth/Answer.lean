import HClient.Auth.Offers

/-!
# The answer, read back

What a reader of the grammar makes of the `Authorization` value, and what it can check the response
with. Every text in the value is escaped but the request-target.
-/
namespace HClient.Digest

open HClient.Field (token ows isTokenChar quotedString quotedBody)
open HClient.Hsts (Blank IsToken Written Escaped quotedBody_sound quotedBody_complete token_complete
  token_none ows_blank)

/-- What the answer writes, in order. -/
def sent (c : Challenge) (username uri cnonce response : Text) : List Param :=
  [("username".toList, username), ("realm".toList, c.realm), ("nonce".toList, c.nonce),
    ("uri".toList, uri), ("algorithm".toList, c.algorithm.token), ("response".toList, response)] ++
  (if c.qopAuth then
    [("qop".toList, "auth".toList), ("nc".toList, nc), ("cnonce".toList, cnonce)] else []) ++
  c.opaque_.toList.map fun value => ("opaque".toList, value)

/-- The response as a server computes it from what it reads, its password and the method. -/
def recomputed (hashes : Hashes) (password method : Text) (ps : List Param) : Option Text := do
  let username ← get ps "username"
  let realm ← get ps "realm"
  let nonce ← get ps "nonce"
  let uri ← get ps "uri"
  let alg ← (get ps "algorithm").bind Algorithm.parse
  let base := alg.hash hashes (username ++ ':' :: (realm ++ ':' :: password))
  let ha1 ←
    if alg.isSess then
      (get ps "cnonce").map fun cnonce => alg.hash hashes (base ++ ':' :: (nonce ++ ':' :: cnonce))
    else some base
  let ha2 := alg.hash hashes (method ++ ':' :: uri)
  match get ps "qop" with
  | none => some (alg.hash hashes (ha1 ++ ':' :: (nonce ++ ':' :: ha2)))
  | some qop => do
      let nc ← get ps "nc"
      let cnonce ← get ps "cnonce"
      some (alg.hash hashes
        (ha1 ++ ':' :: (nonce ++ ':' :: (nc ++ ':' :: (cnonce ++ ':' :: (qop ++ ':' :: ha2))))))

/-- The value reads as what it was made from and as nothing else, and the response can be computed
from what is read. -/
structure Recovered (hashes : Hashes) (c : Challenge)
    (username password method uri cnonce : Text) : Prop where
  reads : ∀ offer, OfferWritten offer (answer hashes c username password method uri cnonce) ↔
    offer = ("digest".toList,
      sent c username uri cnonce (response hashes c username password method uri cnonce))
  checks : recomputed hashes password method
      (sent c username uri cnonce (response hashes c username password method uri cnonce)) =
    some (response hashes c username password method uri cnonce)

/-! ## What is escaped -/

/-- No character that a quoted string escapes. -/
def Plain (s : Text) : Prop := '"' ∉ s ∧ '\\' ∉ s

section
variable {s written rest left : Text}

theorem Plain.escaped (plain : Plain s) : Escaped s s := by
  induction s with
  | nil => exact .nil
  | cons c s ih =>
      obtain ⟨quote, slash⟩ := plain
      rw [List.mem_cons, not_or] at quote slash
      exact .char (Ne.symm quote.1) (Ne.symm slash.1) (ih ⟨quote.2, slash.2⟩)

theorem escaped_flatMap (s : Text) :
    Escaped s (s.flatMap fun c => if c = '"' ∨ c = '\\' then ['\\', c] else [c]) := by
  induction s with
  | nil => exact .nil
  | cons c s ih =>
      rw [List.flatMap_cons]
      split
      · exact .pair c ih
      next other =>
        obtain ⟨quote, slash⟩ := not_or.mp other
        exact .char quote slash ih

theorem escaped_escape (s : Text) : Escaped s (escape s) := by
  unfold escape
  split
  · exact escaped_flatMap s
  next none_ =>
    rw [Bool.or_eq_true, not_or, List.contains_iff_mem, List.contains_iff_mem] at none_
    exact Plain.escaped none_

theorem length_of_escaped (escaped : Escaped s written) : s.length ≤ written.length := by
  induction escaped with
  | nil => exact le_rfl
  | char _ _ _ ih => exact Nat.succ_le_succ ih
  | pair _ _ ih => exact Nat.succ_le_succ (Nat.le_succ_of_le ih)

/-- Every quote is written, with a backslash that is not one. -/
theorem count_of_escaped (escaped : Escaped s written) : written.count '"' = s.count '"' := by
  induction escaped with
  | nil => rfl
  | char quote _ _ ih =>
      rw [List.count_cons_of_ne quote, List.count_cons_of_ne quote, ih]
  | pair c _ ih =>
      rw [List.count_cons_of_ne (by decide), List.count_cons, List.count_cons, ih]

theorem plain_of_escaped (escaped : Escaped s written) (same : written.length = s.length) :
    Plain s := by
  induction escaped with
  | nil => exact ⟨nofun, nofun⟩
  | char quote slash _ ih =>
      obtain ⟨noQuote, noSlash⟩ := ih (Nat.succ.inj same)
      exact ⟨not_or.mpr ⟨Ne.symm quote, noQuote⟩ ∘ List.mem_cons.mp,
        not_or.mpr ⟨Ne.symm slash, noSlash⟩ ∘ List.mem_cons.mp⟩
  | pair c escaped _ =>
      have atMost := length_of_escaped escaped
      simp only [List.length_cons] at same
      omega

/-- What stands between quotes reads as itself only where nothing in it is read otherwise. -/
theorem plain_of_quotedBody (read : quotedBody (s ++ '"' :: rest) = some (s, left)) : Plain s := by
  obtain ⟨written, split, escaped⟩ := quotedBody_sound read
  have longer := length_of_escaped escaped
  rcases List.append_eq_append_iff.mp split with ⟨more, same, behind⟩ | ⟨more, same, -⟩
  · cases more with
    | nil =>
        rw [List.append_nil] at same
        exact plain_of_escaped escaped (congrArg List.length same)
    | cons c more =>
        -- the quote that ends the text would be one of those written for it
        injection behind with first _
        have count := count_of_escaped escaped
        rw [same, ← first, List.count_append, List.count_cons_self] at count
        omega
  · rw [same, List.length_append] at longer
    obtain rfl : more = [] := List.length_eq_zero_iff.mp (by omega)
    rw [List.append_nil] at same
    exact plain_of_escaped escaped (congrArg List.length same.symm)

theorem mem_of_mem_hexEncode {bytes : List UInt8} {c : Char} (member : c ∈ hexEncode bytes) :
    c ∈ "0123456789abcdef".toList := by
  have digit (n : Nat) : ("0123456789abcdef".toList[n]?).getD '0' ∈ "0123456789abcdef".toList := by
    cases found : "0123456789abcdef".toList[n]? with
    | none => decide
    | some d => exact List.mem_of_getElem? found
  obtain ⟨b, -, here⟩ := List.mem_flatMap.mp member
  rcases List.mem_cons.mp here with same | here
  · exact same ▸ digit _
  · exact List.mem_singleton.mp here ▸ digit _

theorem plain_hexEncode (bytes : List UInt8) : Plain (hexEncode bytes) :=
  ⟨mt mem_of_mem_hexEncode (by decide), mt mem_of_mem_hexEncode (by decide)⟩

theorem plain_hash (hashes : Hashes) (alg : Algorithm) (data : Text) :
    Plain (alg.hash hashes data) := by
  cases alg <;> exact plain_hexEncode _

theorem plain_response (hashes : Hashes) (c : Challenge)
    (username password method uri cnonce : Text) :
    Plain (response hashes c username password method uri cnonce) := by
  cases qop : c.qopAuth <;> simp only [response, qop, Bool.false_eq_true, if_true, if_false] <;>
    exact plain_hash _ _ _

end

/-! ## The value as a list of parameters -/

/-- A parameter in quotes. -/
def piece (name : String) (written : Text) : Text :=
  name.toList ++ '=' :: '"' :: (written ++ ['"'])

/-- The parameters behind the first, and how each is written. -/
def others (c : Challenge) (uri cnonce response : Text) : List (Param × Text) :=
  [(("realm".toList, c.realm), piece "realm" (escape c.realm)),
    (("nonce".toList, c.nonce), piece "nonce" (escape c.nonce)),
    (("uri".toList, uri), piece "uri" uri),
    (("algorithm".toList, c.algorithm.token), "algorithm=".toList ++ c.algorithm.token),
    (("response".toList, response), piece "response" response)] ++
  (if c.qopAuth then
    [(("qop".toList, "auth".toList), "qop=auth".toList), (("nc".toList, nc), "nc=".toList ++ nc),
      (("cnonce".toList, cnonce), piece "cnonce" (escape cnonce))] else []) ++
  c.opaque_.toList.map fun value => (("opaque".toList, value), piece "opaque" (escape value))

def joined (fields : List (Param × Text)) : Text := fields.flatMap fun field => ", ".toList ++ field.2

theorem sent_eq (c : Challenge) (username uri cnonce response : Text) :
    sent c username uri cnonce response =
      ("username".toList, username) :: (others c uri cnonce response).map Prod.fst := by
  unfold sent others
  cases c.qopAuth <;> cases c.opaque_ <;> rfl

theorem answer_eq (hashes : Hashes) (c : Challenge) (username password method uri cnonce : Text) :
    answer hashes c username password method uri cnonce =
      "Digest".toList ++ (" ".toList ++ (piece "username" (escape username) ++
        joined (others c uri cnonce
          (response hashes c username password method uri cnonce)))) := by
  have realm : "\", realm=\"".toList = '"' :: (", ".toList ++ ("realm".toList ++ ['=', '"'])) := by
    decide
  have nonce : "\", nonce=\"".toList = '"' :: (", ".toList ++ ("nonce".toList ++ ['=', '"'])) := by
    decide
  have target : "\", uri=\"".toList = '"' :: (", ".toList ++ ("uri".toList ++ ['=', '"'])) := by
    decide
  have algorithm : "\", algorithm=".toList = '"' :: (", ".toList ++ "algorithm=".toList) := by decide
  have response : ", response=\"".toList = ", ".toList ++ ("response".toList ++ ['=', '"']) := by
    decide
  have qop : ", qop=auth, nc=".toList =
      ", ".toList ++ ("qop=auth".toList ++ (", ".toList ++ "nc=".toList)) := by decide
  have cnonce : ", cnonce=\"".toList = ", ".toList ++ ("cnonce".toList ++ ['=', '"']) := by decide
  have opaque_ : ", opaque=\"".toList = ", ".toList ++ ("opaque".toList ++ ['=', '"']) := by decide
  have username : "Digest username=\"".toList =
      "Digest".toList ++ (" ".toList ++ ("username".toList ++ ['=', '"'])) := by decide
  have quote : "\"".toList = ['"'] := by decide
  unfold answer others joined piece
  rw [realm, nonce, target, algorithm, response, qop, cnonce, username, quote]
  cases c.qopAuth <;> cases c.opaque_ <;>
    simp only [opaque_, List.append_assoc, List.cons_append, List.nil_append, List.flatMap_cons,
      List.flatMap_nil, List.append_nil, List.map_nil, List.map_cons, Option.toList_none,
      Option.toList_some, Bool.false_eq_true, if_false, if_true]

theorem written_piece {name : String} {value written : Text} (isToken : IsToken name.toList)
    (lower : Text.toAsciiLowercase name.toList = name.toList) (escaped : Escaped value written) :
    ParamWritten (name.toList, value) (piece name written) := by
  have quoted := ParamWritten.quoted isToken escaped
  rwa [lower] at quoted

theorem written_token {name value : Text} (isToken : IsToken name)
    (lower : name.toAsciiLowercase = name) (isValue : IsToken value) :
    ParamWritten (name, value) (name ++ '=' :: value) := by
  have bare := @ParamWritten.mk name [] [] value value isToken nofun nofun (.token isValue)
  rwa [lower] at bare

theorem isToken_algorithm (alg : Algorithm) : IsToken alg.token := by
  cases alg <;> exact isToken_of_all (by decide)

/-- Each parameter is written as what it says, the target where it is plain. -/
theorem written_others (c : Challenge) (cnonce : Text) {uri response : Text} (target : Plain uri)
    (proof : Plain response) :
    ∀ field ∈ others c uri cnonce response, ParamWritten field.1 field.2 := by
  have realm : ParamWritten ("realm".toList, c.realm) (piece "realm" (escape c.realm)) :=
    written_piece (isToken_of_all (by decide)) (by decide) (escaped_escape _)
  have nonce : ParamWritten ("nonce".toList, c.nonce) (piece "nonce" (escape c.nonce)) :=
    written_piece (isToken_of_all (by decide)) (by decide) (escaped_escape _)
  have uri : ParamWritten ("uri".toList, uri) (piece "uri" uri) :=
    written_piece (isToken_of_all (by decide)) (by decide) target.escaped
  have algorithm : ParamWritten ("algorithm".toList, c.algorithm.token)
      ("algorithm=".toList ++ c.algorithm.token) :=
    @written_token "algorithm".toList _ (isToken_of_all (by decide)) (by decide) (isToken_algorithm _)
  have proof : ParamWritten ("response".toList, response) (piece "response" response) :=
    written_piece (isToken_of_all (by decide)) (by decide) proof.escaped
  have qop : ParamWritten ("qop".toList, "auth".toList) "qop=auth".toList :=
    @written_token "qop".toList _ (isToken_of_all (by decide)) (by decide)
      (isToken_of_all (by decide))
  have count : ParamWritten ("nc".toList, nc) ("nc=".toList ++ nc) :=
    @written_token "nc".toList _ (isToken_of_all (by decide)) (by decide)
      (isToken_of_all (by decide))
  have cnonce : ParamWritten ("cnonce".toList, cnonce) (piece "cnonce" (escape cnonce)) :=
    written_piece (isToken_of_all (by decide)) (by decide) (escaped_escape _)
  have opaque_ (value : Text) :
      ParamWritten ("opaque".toList, value) (piece "opaque" (escape value)) :=
    written_piece (isToken_of_all (by decide)) (by decide) (escaped_escape _)
  unfold others
  simp only [List.forall_mem_append, List.forall_mem_cons]
  refine ⟨⟨⟨realm, nonce, uri, algorithm, proof, nofun⟩, ?_⟩, ?_⟩
  · split
    · simp only [List.forall_mem_cons]
      exact ⟨qop, count, cnonce, nofun⟩
    · exact nofun
  · intro field member
    obtain ⟨value, -, rfl⟩ := List.mem_map.mp member
    exact opaque_ value

/-! ## What the parameters are read as -/

theorem comma_written : Separator ", ".toList := @Separator.comma [] [' '] nofun (by simp [Blank])

theorem tail_joined {fields : List (Param × Text)}
    (written : ∀ field ∈ fields, ParamWritten field.1 field.2) :
    Tail ParamWritten (fields.map Prod.fst) (joined fields) := by
  induction fields with
  | nil => exact .done
  | cons field fields ih =>
      rw [joined, List.flatMap_cons, List.append_assoc]
      exact .element comma_written (written field List.mem_cons_self)
        (ih fun other member => written other (List.mem_cons_of_mem _ member))

section
variable {ps : List Param} {cs : List Offer} {p : Param} {i j left t : Text}

/-- Where a parameter stands first, it is what the reader reads there. -/
theorem Rest.first_param (rest : Rest true true (p :: ps) cs t) (found : separator t = some j)
    (first : ∀ c ∈ j.head?, c ≠ ',') (some_ : j ≠ []) :
    ∃ left, authParam j = some (p, left) ∧ Rest true true ps cs left := by
  cases rest with
  | @empty _ _ _ s t sep _ rest =>
      rw [separator_append sep] at found
      cases found
      obtain ⟨c, more, same⟩ := List.exists_cons_of_ne_nil some_
      rw [same] at first
      exact absurd (rest.ends c (by rw [same]; rfl)) (first c rfl)
  | @param _ _ _ s e t sep written rest =>
      rw [separator_append sep, ows_of_solid (not_blank_of_token (param_solid written t))] at found
      cases found
      exact ⟨t, authParam_complete written rest.ends, rest⟩

/-- And where the reader reads a parameter, it stands first. -/
theorem Rest.next_param (rest : Rest true true ps cs t) (found : separator t = some j)
    (read : authParam j = some (p, left)) :
    ∃ more, ps = p :: more ∧ Rest true true more cs left := by
  cases rest with
  | done blank =>
      rw [← List.append_nil t, separator_blank blank, separator_nil] at found
      cases found
  | empty sep _ rest =>
      rw [separator_append sep] at found
      cases found
      rw [rest.ends.authParam_ows] at read
      cases read
  | @param q qs _ s e t sep written rest =>
      rw [separator_append sep, ows_of_solid (not_blank_of_token (param_solid written t))] at found
      cases found
      rw [authParam_complete written rest.ends] at read
      cases read
      exact ⟨qs, rfl, rest⟩
  | @offer _ _ _ _ _ s e t sep opening rest =>
      rw [separator_append sep, ows_of_solid (opening.solid t)] at found
      cases found
      rw [opening.not_param rest.ends] at read
      cases read

theorem Rest.nothing (rest : Rest true true ps cs []) : ps = [] ∧ cs = [] := by
  generalize empty : ([] : Text) = t at rest
  have none_ : separator t = none := by rw [← empty, separator_nil]
  cases rest with
  | done _ => exact ⟨rfl, rfl⟩
  | empty sep _ _ =>
      rw [separator_append sep] at none_
      cases none_
  | param sep _ _ =>
      rw [separator_append sep] at none_
      cases none_
  | offer sep _ _ =>
      rw [separator_append sep] at none_
      cases none_

theorem ends_joined (fields : List (Param × Text)) : Ends (joined fields) := by
  cases fields with
  | nil => exact ends_blank nofun
  | cons field fields =>
      rw [joined, List.flatMap_cons, List.append_assoc]
      exact comma_written.ends _

theorem separator_joined (field : Param × Text) (fields : List (Param × Text)) :
    separator (joined (field :: fields)) = some (ows (field.2 ++ joined fields)) := by
  rw [joined, List.flatMap_cons, List.append_assoc, separator_append comma_written]
  rfl

/-- A parameter that is written as what it says is read as that. -/
theorem Rest.joined_cons {field : Param × Text} {fields : List (Param × Text)}
    (rest : Rest true true ps cs (joined (field :: fields)))
    (written : ParamWritten field.1 field.2) :
    ∃ more, ps = field.1 :: more ∧ Rest true true more cs (joined fields) := by
  refine rest.next_param (separator_joined field fields) ?_
  rw [ows_of_solid (not_blank_of_token (param_solid written _)),
    authParam_complete written (ends_joined fields)]

theorem Rest.joined_eq {fields : List (Param × Text)}
    (written : ∀ field ∈ fields, ParamWritten field.1 field.2)
    (rest : Rest true true ps cs (joined fields)) : ps = fields.map Prod.fst ∧ cs = [] := by
  induction fields generalizing ps with
  | nil => exact rest.nothing
  | cons field fields ih =>
      obtain ⟨more, rfl, behind⟩ := rest.joined_cons (written field List.mem_cons_self)
      obtain ⟨rfl, none_⟩ := ih (fun other member =>
        written other (List.mem_cons_of_mem _ member)) behind
      exact ⟨rfl, none_⟩

/-- Where a scheme and a parameter are read, an offer opens with these. -/
theorem Opening.first_param {next : Bool} {c : Offer} {e scheme gap : Text}
    (opening : Opening true c next e) (ends : Ends t) (same : e ++ t = scheme ++ (gap ++ i))
    (isToken : IsToken scheme) (spaces : Spaces gap) (solid : ∀ c ∈ i.head?, isTokenChar c = true)
    (read : authParam i = some (p, left)) :
    c = (scheme.toAsciiLowercase, [p]) ∧ next = true ∧ t = left := by
  have named : token (e ++ t) = some (scheme, gap ++ i) := by
    rw [same, token_complete isToken (spaces.not_token i)]
  have behind : ows (gap ++ i) = i := ows_blank spaces.blank (not_blank_of_token solid)
  cases opening with
  | alone isToken' =>
      rw [token_complete isToken' ends.not_token] at named
      cases named
      rw [← behind, ends.authParam_ows] at read
      cases read
  | token68 isToken' spaces' isToken68 =>
      rw [List.append_assoc, List.append_assoc,
        token_complete isToken' (spaces'.not_token _)] at named
      injection named with named
      injection named with _ after
      have first := ows_blank spaces'.blank (not_blank_of_token68 (token68_solid isToken68 t))
      rw [after, behind] at first
      rw [first, authParam_token68 isToken68 ends] at read
      cases read
  | param isToken' spaces' written =>
      rw [List.append_assoc, List.append_assoc,
        token_complete isToken' (spaces'.not_token _)] at named
      injection named with named
      injection named with scheme after
      have first := ows_blank spaces'.blank (not_blank_of_token (param_solid written t))
      rw [after, behind] at first
      rw [first, authParam_complete written ends] at read
      cases read
      rw [scheme]
      exact ⟨rfl, rfl, rfl⟩
  | bare _ isToken' spaces' =>
      rw [List.append_assoc, token_complete isToken' (spaces'.not_token _)] at named
      injection named with named
      injection named with _ after
      have first := ows_append spaces'.blank t
      rw [after, behind] at first
      rw [first, ends.authParam_ows] at read
      cases read

/-- Whatever the value reads as begins with the scheme and the first parameter. -/
theorem OfferWritten.digest {offer : Offer} {e : Text} {fields : List (Param × Text)}
    (value : OfferWritten offer ("Digest".toList ++ (" ".toList ++ (e ++ joined fields))))
    (written : ParamWritten p e) :
    ∃ ps, offer = ("digest".toList, p :: ps) ∧ Rest true true ps [] (joined fields) := by
  have nothing : ∀ open_, Rest true open_ [] [] [] := fun _ => .done nofun
  obtain ⟨first, next, ps, front, behind, same, rfl, opening, rest⟩ := value.opening nothing
  rw [List.append_nil] at same
  obtain ⟨opens, going, after⟩ := opening.first_param rest.ends same.symm
    (isToken_of_all (by decide)) ⟨by decide, by simp⟩ (param_solid written _)
    (authParam_complete written (ends_joined fields))
  subst opens going after
  exact ⟨ps, rfl, rest⟩

theorem offer_joined {e : Text} {fields : List (Param × Text)} (first : ParamWritten p e)
    (written : ∀ field ∈ fields, ParamWritten field.1 field.2) :
    OfferWritten ("digest".toList, p :: fields.map Prod.fst)
      ("Digest".toList ++ (" ".toList ++ (e ++ joined fields))) :=
  @OfferWritten.params "Digest".toList " ".toList _ _ (isToken_of_all (by decide))
    ⟨by decide, by simp⟩ (.element first (tail_joined written))

theorem authParam_piece {name : String} (isToken : IsToken name.toList) (written t : Text) :
    authParam (piece name written ++ t) =
      (quotedBody (written ++ '"' :: t)).map fun (value, i) =>
        ((Text.toAsciiLowercase name.toList, value), i) := by
  have stops : ∀ c ∈ ('=' :: '"' :: (written ++ '"' :: t)).head?, isTokenChar c = false :=
    Runs.forall_head (by decide)
  have solid (c : Char) (more : Text) (other : ¬ (c = ' ' ∨ c = '\t')) :
      ows (c :: more) = c :: more := ows_of_solid (Runs.forall_head other)
  have noToken : token ('"' :: (written ++ '"' :: t)) = none := by
    exact token_none (Runs.forall_head (by decide))
  have quoted : quotedString ('"' :: (written ++ '"' :: t)) = quotedBody (written ++ '"' :: t) := rfl
  have whole : piece name written ++ t = name.toList ++ '=' :: '"' :: (written ++ '"' :: t) := by
    simp [piece]
  rw [whole]
  simp only [authParam, token_complete isToken stops, solid '=' _ (by decide),
    solid '"' _ (by decide), noToken, quoted]
  cases quotedBody (written ++ '"' :: t) <;> rfl

end

section
variable (hashes : Hashes) (c : Challenge) (username password method uri cnonce : Text)

theorem written_username : ParamWritten ("username".toList, username)
    (piece "username" (escape username)) :=
  written_piece (isToken_of_all (by decide)) (by decide) (escaped_escape _)

theorem reads_of_plain (plain : Plain uri) (offer : Offer) :
    OfferWritten offer (answer hashes c username password method uri cnonce) ↔
      offer = ("digest".toList,
        sent c username uri cnonce (response hashes c username password method uri cnonce)) := by
  have written := written_others c cnonce plain
    (plain_response hashes c username password method uri cnonce)
  rw [answer_eq, sent_eq]
  constructor
  · intro value
    obtain ⟨ps, rfl, rest⟩ := value.digest (written_username username)
    rw [(rest.joined_eq written).1]
  · rintro rfl
    exact offer_joined (written_username username) written

/-- Where the target is read as itself, it holds nothing that is escaped. -/
theorem plain_of_first {uri : Text} {ps : List Param} {cs : List Offer} {more : List (Param × Text)}
    (rest : Rest true true (("uri".toList, uri) :: ps) cs
      (joined ((("uri".toList, uri), piece "uri" uri) :: more))) : Plain uri := by
  have first : ∀ d ∈ (piece "uri" uri ++ joined more).head?, d = 'u' :=
    Runs.forall_head rfl
  have found : separator (joined ((("uri".toList, uri), piece "uri" uri) :: more)) =
      some (piece "uri" uri ++ joined more) := by
    rw [separator_joined, ows_of_solid]
    intro d there
    rw [first d there]
    decide
  obtain ⟨left, read, -⟩ := rest.first_param found
    (by intro d there; rw [first d there]; decide) (by intro empty; cases empty)
  rw [authParam_piece (isToken_of_all (by decide))] at read
  obtain ⟨⟨value, after⟩, body, same⟩ := Option.map_eq_some_iff.mp read
  injection same with same _
  injection same with _ same
  subst same
  exact plain_of_quotedBody body

theorem plain_of_reads (reads : OfferWritten ("digest".toList,
      sent c username uri cnonce (response hashes c username password method uri cnonce))
    (answer hashes c username password method uri cnonce)) : Plain uri := by
  rw [answer_eq, sent_eq] at reads
  obtain ⟨ps, same, rest⟩ := reads.digest (written_username username)
  injection same with _ same
  injection same with _ same
  subst same
  have realm : ParamWritten ("realm".toList, c.realm) (piece "realm" (escape c.realm)) :=
    written_piece (isToken_of_all (by decide)) (by decide) (escaped_escape _)
  have nonce : ParamWritten ("nonce".toList, c.nonce) (piece "nonce" (escape c.nonce)) :=
    written_piece (isToken_of_all (by decide)) (by decide) (escaped_escape _)
  obtain ⟨more, fields⟩ : ∃ more,
      others c uri cnonce (response hashes c username password method uri cnonce) =
        (("realm".toList, c.realm), piece "realm" (escape c.realm)) ::
        (("nonce".toList, c.nonce), piece "nonce" (escape c.nonce)) ::
        (("uri".toList, uri), piece "uri" uri) :: more := ⟨_, rfl⟩
  rw [fields] at rest
  obtain ⟨_, same, rest⟩ := rest.joined_cons realm
  injection same with _ same
  subst same
  obtain ⟨_, same, rest⟩ := Rest.joined_cons rest nonce
  injection same with _ same
  subst same
  exact plain_of_first rest

/-- The response can be computed from what is sent unless it is made with a client nonce that is
not. -/
theorem recomputed_iff : recomputed hashes password method
      (sent c username uri cnonce (response hashes c username password method uri cnonce)) =
        some (response hashes c username password method uri cnonce) ↔
    (c.algorithm.isSess = true → c.qopAuth = true) := by
  generalize proof : response hashes c username password method uri cnonce = value
  have name : get (sent c username uri cnonce value) "username" = some username := rfl
  have realm : get (sent c username uri cnonce value) "realm" = some c.realm := rfl
  have nonce : get (sent c username uri cnonce value) "nonce" = some c.nonce := rfl
  have target : get (sent c username uri cnonce value) "uri" = some uri := rfl
  have algorithm : get (sent c username uri cnonce value) "algorithm" = some c.algorithm.token := rfl
  have parsed := Algorithm.parse_token c.algorithm
  unfold recomputed
  rw [name, realm, nonce, target, algorithm, Option.bind_some, parsed]
  cases qop : c.qopAuth with
  | true =>
      have quality : get (sent c username uri cnonce value) "qop" = some "auth".toList := by
        simp only [sent, qop]
        rfl
      have count : get (sent c username uri cnonce value) "nc" = some nc := by
        simp only [sent, qop]
        rfl
      have client : get (sent c username uri cnonce value) "cnonce" = some cnonce := by
        simp only [sent, qop]
        rfl
      have auth : ":auth:".toList = ':' :: ("auth".toList ++ [':']) := by decide
      rw [quality, count, client]
      refine iff_of_true ?_ fun _ => rfl
      rw [← proof]
      cases sess : c.algorithm.isSess <;>
        simp only [response, qop, sess, auth, Option.bind_eq_bind, Option.bind_some,
          Option.map_some, Bool.false_eq_true, if_true, if_false, List.cons_append,
          List.append_assoc, List.nil_append]
  | false =>
      have quality : get (sent c username uri cnonce value) "qop" = none := by
        simp only [sent, qop]
        cases c.opaque_ <;> rfl
      have client : get (sent c username uri cnonce value) "cnonce" = none := by
        simp only [sent, qop]
        cases c.opaque_ <;> rfl
      rw [quality, client]
      cases sess : c.algorithm.isSess with
      | true =>
          refine iff_of_false ?_ (by simp)
          simp only [sess, Option.bind_eq_bind, Option.bind_some, Option.map_none, if_true]
          exact nofun
      | false =>
          refine iff_of_true ?_ (by simp)
          rw [← proof]
          simp only [response, qop, sess, Option.bind_eq_bind, Option.bind_some,
            Bool.false_eq_true, if_false]

/-- Every text comes back as it was, nothing else is read, and the response can be checked, exactly
where the target holds neither a quote nor a backslash and a session's algorithm is answered with
the client nonce it was computed with. -/
theorem answer_recovered_iff : Recovered hashes c username password method uri cnonce ↔
    ('"' ∉ uri ∧ '\\' ∉ uri) ∧ (c.algorithm.isSess = true → c.qopAuth = true) := by
  constructor
  · intro recovered
    exact ⟨plain_of_reads hashes c username password method uri cnonce
      ((recovered.reads _).mpr rfl), (recomputed_iff ..).mp recovered.checks⟩
  · rintro ⟨plain, sess⟩
    exact ⟨reads_of_plain hashes c username password method uri cnonce plain,
      (recomputed_iff ..).mpr sess⟩

end

/-- A target with a quote, which the value does not escape. -/
theorem quoted_target_lost :
    let uri : Uri := ⟨none, none, some ⟨"/a\"b".toList, none⟩⟩
    let c : Challenge := ⟨"r".toList, "n".toList, .md5, none, true, false, false⟩
    let hashes : Hashes := ⟨id, id, id⟩
    requestTarget uri = "/a\"b".toList ∧
      ¬ Recovered hashes c "u".toList "p".toList "GET".toList (requestTarget uri) "c".toList := by
  refine ⟨by decide, fun recovered => ?_⟩
  have plain := plain_of_reads _ _ _ _ _ _ _ ((recovered.reads _).mpr rfl)
  exact plain.1 (by decide)

end HClient.Digest
