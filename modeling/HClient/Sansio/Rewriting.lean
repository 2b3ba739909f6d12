import HClient.Sansio.Parse

/-!
# What `parse` makes of a string

The pieces that `http::Uri` finds in the rewritten text, against those that it finds in the string
itself. They are the string's own, converted, wherever both scans look for a host in one place.
-/
namespace HClient.Sansio
open HClient.Text HttpUri

/-- The userinfo with its `@`, the host and what follows it, as `Authority::host` finds them. -/
def authorityParts (authority : Text) : Text × Text × Text :=
  let start := through ['@'] authority
  let hostport := behind ['@'] authority
  if hostport.head? = some '[' ∧ ']' ∈ hostport then
    (start, upTo [']'] hostport ++ [']'], (onward [']'] hostport).tail)
  else (start, upTo [':'] hostport, onward [':'] hostport)

def hostOf (authority : Text) : Text := (authorityParts authority).2.1

/-- The conversion of a host: an A-label where it is not ASCII. -/
def HostConverted (idn : Idn) (host result : Text) : Prop :=
  if host.isAscii then result = host else hostToAscii host idn = .ok result

/-- The conversion of an authority, piece by piece. -/
def AuthorityConverted (idn : Idn) (authority result : Text) : Prop :=
  (authorityParts result).1 = percentEncode (authorityParts authority).1 ∧
    HostConverted idn (hostOf authority) (hostOf result) ∧
    (authorityParts result).2.2 = percentEncode (authorityParts authority).2.2

/-- The conversion of a URI, piece by piece. -/
structure Converted (idn : Idn) (u result : HttpUri) : Prop where
  scheme : result.scheme = u.scheme
  authority : Option.Rel (AuthorityConverted idn) u.authority result.authority
  path : result.path = percentEncode u.path
  query : result.query = u.query.map percentEncode

/-- What `parse` gives is the string's own pieces, converted, and is read again as it is. -/
def Rewritten (http : HttpParser) (idn : Idn) (s : Text) (result : HttpUri) : Prop :=
  (∃ u, split s = some u ∧ Converted idn u result) ∧ parse http idn result.display = .ok result

/-- The string opens with a scheme, as RFC 3986 has them, and an authority. -/
def Opens (s : Text) : Prop := ∃ scheme rest, schemeEnd s = some (scheme, '/' :: '/' :: rest)

/-- The host that is converted is the host that `http::Uri` finds: no path has one at its front
that is not ASCII, and a host that is not ASCII stands behind a scheme that begins with a letter. -/
structure HostLocated (s : Text) : Prop where
  path : s.head? = some '/' → ∀ start host rest, locateHost s = some (start, host, rest) →
    host.isAscii = true
  behind : ∀ u authority, split s = some u → u.authority = some authority →
    (hostOf authority).isAscii = false → Opens s

variable {s t start host port authority x : Text} {idn : Idn} {http : HttpParser}
  {u result : HttpUri}

/-! ## The host that `http::Uri` finds -/

/-- Pieces that hold none of each other's delimiters are found again. -/
theorem authorityParts_append (user : start = [] ∨ ∃ before, start = before ++ ['@'])
    (plain : ['@', ':', '[', ']'].Disjoint host) (after : port = [] ∨ port.head? = some ':')
    (clear : '@' ∉ port) : authorityParts (start ++ (host ++ port)) = (start, host, port) := by
  have no_at : ['@'].Disjoint (host ++ port) := by
    refine List.disjoint_append_right.mpr ⟨List.disjoint_of_subset_left (by simp) plain, ?_⟩
    exact List.singleton_disjoint.mpr clear
  have first : through ['@'] (start ++ (host ++ port)) = start := by
    rw [through_append no_at]
    rcases user with rfl | ⟨before, rfl⟩
    · rfl
    · exact through_stop (List.mem_singleton_self _) (List.disjoint_nil_right _) before
  have rest : HClient.Text.behind ['@'] (start ++ (host ++ port)) = host ++ port := by
    rw [behind_append no_at]
    rcases user with rfl | ⟨before, rfl⟩
    · rfl
    · rw [behind_stop (List.mem_singleton_self _) (List.disjoint_nil_right _), List.nil_append]
  have no_colon : [':'].Disjoint host := List.disjoint_of_subset_left (by simp) plain
  have unbracketed : (host ++ port).head? ≠ some '[' := by
    intro bracket
    cases host with
    | nil =>
        rcases after with rfl | colon
        · cases bracket
        · rw [List.nil_append, colon] at bracket
          exact absurd (Option.some.inj bracket) (by decide)
    | cons c host =>
        obtain rfl := Option.some.inj bracket
        exact plain (by simp) List.mem_cons_self
  have begins : upTo [':'] port = [] := by
    rcases after with rfl | colon
    · rfl
    · cases port with
      | nil => cases colon
      | cons c port =>
          obtain rfl := Option.some.inj colon
          exact upTo_cons (List.mem_singleton_self _) port
  have tail : onward [':'] port = port := by
    conv_rhs => rw [← upTo_append_onward [':'] port, begins, List.nil_append]
  rw [authorityParts]
  rw [first, rest, if_neg fun bracket => unbracketed bracket.1, upTo_append no_colon,
    onward_append no_colon, begins, tail, List.append_nil]

theorem authorityParts_percentEncode (authority : Text) :
    authorityParts (percentEncode authority) =
      (percentEncode (authorityParts authority).1, percentEncode (hostOf authority),
        percentEncode (authorityParts authority).2.2) := by
  have at_ : ['@'] ⊆ delimiters := by simp [delimiters]
  have colon : [':'] ⊆ delimiters := by simp [delimiters]
  have bracket : [']'] ⊆ delimiters := by simp [delimiters]
  have same : ∀ hostport : Text, ']' ∈ percentEncode hostport ↔ ']' ∈ hostport := by
    intro hostport
    refine ⟨mem_percentEncode (by decide), fun member => ?_⟩
    exact List.mem_flatMap.mpr ⟨']', member, by decide⟩
  rw [hostOf, authorityParts, authorityParts]
  rw [through_percentEncode at_, behind_percentEncode at_]
  generalize HClient.Text.behind ['@'] authority = hostport
  simp only [same, head?_percentEncode (d := '[') (by decide) (by decide)]
  by_cases literal : hostport.head? = some '[' ∧ ']' ∈ hostport
  · rw [if_pos literal, if_pos literal, upTo_percentEncode bracket, onward_percentEncode bracket]
    dsimp only
    rw [percentEncode_append, percentEncode_delimiters bracket]
    rcases onward_cases [']'] hostport with none | ⟨c, stop, rest, found⟩
    · rw [none]
      rfl
    · rw [found, percentEncode_cons_ascii (toNat_delimiter bracket stop)]
      rfl
  · rw [if_neg literal, if_neg literal, upTo_percentEncode colon, onward_percentEncode colon]

/-! ## The host that the scan finds -/

/-- It and the port that follows it are what stands behind the userinfo. -/
theorem hostRange_cases (authority : Text) :
    ∃ host port, hostRange authority = (through ['@'] authority, host, port) ∧
      HClient.Text.behind ['@'] authority = host ++ port ∧ (port = [] ∨ ∃ p, port = ':' :: p) ∧
      (']' ∈ HClient.Text.behind ['@'] authority →
        through [']'] (HClient.Text.behind ['@'] authority) <+: host) := by
  rw [hostRange]
  generalize HClient.Text.behind ['@'] authority = hostport
  by_cases bracket : ']' ∈ hostport
  · rw [if_pos bracket]
    refine ⟨_, _, rfl, ?_, ?_, fun _ => List.prefix_append _ _⟩
    · rw [List.append_assoc, upTo_append_onward, through_append_behind]
    · have tail := onward_cases [':'] (HClient.Text.behind [']'] hostport)
      rcases tail with none | ⟨c, stop, rest, found⟩
      · exact .inl none
      · obtain rfl := List.mem_singleton.mp stop
        exact .inr ⟨rest, found⟩
  · rw [if_neg bracket]
    by_cases colon : ':' ∈ hostport
    · rw [if_pos colon]
      refine ⟨_, _, rfl, ?_, .inr ⟨_, rfl⟩, fun member => absurd member bracket⟩
      rcases through_cases [':'] hostport with none | ⟨c, stop, before, found⟩
      · rw [← through_append_behind [':'] hostport, none, List.nil_append] at colon
        exact (disjoint_behind [':'] hostport (List.mem_singleton_self _) colon).elim
      · obtain rfl := List.mem_singleton.mp stop
        conv_lhs => rw [← through_append_behind [':'] hostport, found]
        rw [found, List.dropLast_concat, List.append_assoc, List.singleton_append]
    · rw [if_neg colon]
      exact ⟨_, _, rfl, (List.append_nil _).symm, .inl rfl, fun member => absurd member bracket⟩

/-- The host of `http::Uri` is within it. -/
theorem hostOf_within (authority : Text) : hostOf authority <+: (hostRange authority).2.1 := by
  obtain ⟨host, port, located, rest, after, literal⟩ := hostRange_cases authority
  rw [hostOf, authorityParts, located]
  split
  next bracket => exact (upTo_through bracket.2).trans (literal bracket.2)
  · rw [rest]
    rcases after with rfl | ⟨p, rfl⟩
    · rw [List.append_nil]
      exact List.takeWhile_prefix _
    · exact upTo_prefix (List.mem_singleton_self _) host p

theorem isAscii_of_within (inside : s <+: t) (ascii : t.isAscii = true) : s.isAscii = true :=
  List.all_eq_true.mpr fun c member => List.all_eq_true.mp ascii c (inside.subset member)

/-! ## A converted host -/

/-- What no A-label holds. -/
def neverInHost : List Char := ['%', '#', '/', ':', '?', '@', '[', ']']

theorem hostToAscii_ok (converted : hostToAscii host idn = .ok x) :
    ∃ handle : Uts46, handle.toAscii host = some x ∧ neverInHost.Disjoint x := by
  cases idn with
  | off => cases converted
  | on find =>
      rw [hostToAscii, domainToAscii] at converted
      cases chosen : selected find with
      | none =>
          rw [chosen] at converted
          cases converted
      | some handle =>
          rw [chosen] at converted
          cases found : handle.toAscii host with
          | none =>
              simp only [found] at converted
              cases converted
          | some ascii =>
              simp only [found] at converted
              split at converted
              · cases converted
              next clean =>
                cases converted
                refine ⟨handle, found, fun c never member => clean ?_⟩
                have forbidden : neverInHost.all isForbiddenDomainByte = true := by decide
                exact List.any_eq_true.mpr ⟨c, member, List.all_eq_true.mp forbidden c never⟩

/-- Where UTS 46 takes the host that the scan finds, it is the host of `http::Uri`, and so is what
takes its place. -/
theorem authorityConverted_of_located (located : hostRange authority = (start, host, port))
    (wide : host.isAscii = false) (converted : hostToAscii host idn = .ok x) :
    AuthorityConverted idn authority (percentEncode start ++ (x ++ percentEncode port)) := by
  obtain ⟨handle, answered, clean⟩ := hostToAscii_ok converted
  obtain ⟨host', port', same, rest, after, -⟩ := hostRange_cases authority
  rw [located] at same
  cases same
  have no_at := disjoint_behind ['@'] authority
  rw [rest, List.disjoint_append_right, List.singleton_disjoint, List.singleton_disjoint] at no_at
  have front : port = [] ∨ port.head? = some ':' := by
    rcases after with none | ⟨p, colon⟩
    · exact .inl none
    · exact .inr (by rw [colon]; rfl)
  have user : through ['@'] authority = [] ∨
      ∃ before, through ['@'] authority = before ++ ['@'] := by
    rcases through_cases ['@'] authority with none | ⟨c, stop, before, found⟩
    · exact .inl none
    · exact .inr ⟨before, List.mem_singleton.mp stop ▸ found⟩
  have never : [':', '[', ']'] ⊆ neverInHost := by simp [neverInHost]
  have plain : ['@', ':', '[', ']'].Disjoint host := by
    intro c stop member
    rcases List.mem_cons.mp stop with rfl | stop
    · exact no_at.1 member
    · exact clean (never stop) (handle.copies answered stop member)
  have parts : authorityParts authority = (through ['@'] authority, host, port) := by
    conv_lhs => rw [← through_append_behind ['@'] authority, rest]
    exact authorityParts_append user plain front no_at.2
  have parts' : authorityParts (percentEncode (through ['@'] authority) ++
      (x ++ percentEncode port)) =
        (percentEncode (through ['@'] authority), x, percentEncode port) := by
    have free : ['@', ':', '[', ']'].Disjoint x :=
      List.disjoint_of_subset_left (by simp [neverInHost]) clean
    refine authorityParts_append ?_ free ?_ ?_
    · rcases user with none | ⟨before, found⟩
      · exact .inl (by rw [none]; rfl)
      · refine .inr ⟨percentEncode before, ?_⟩
        rw [found, percentEncode_append]
        rfl
    · rcases after with none | ⟨p, colon⟩
      · exact .inl (by rw [none]; rfl)
      · exact .inr (by rw [colon, percentEncode_cons_ascii (by decide)]; rfl)
    · exact fun member => no_at.2 (mem_percentEncode (by decide) member)
  rw [AuthorityConverted, hostOf, hostOf, parts, parts']
  refine ⟨rfl, ?_, rfl⟩
  rw [HostConverted, if_neg (by simp [wide])]
  exact converted

/-! ## The two scans over one string -/

theorem schemeEnd_some {scheme rest : Text} (found : schemeEnd s = some (scheme, rest)) :
    scheme.all isSchemeChar = true ∧ s = scheme ++ ':' :: rest ∧ s.head? ≠ some '/' := by
  rw [schemeEnd] at found
  split at found
  next c cs d rest' before after =>
    split at found
    next legal =>
      cases found
      rw [Bool.and_eq_true] at legal
      have first : isSchemeChar c = true := by simp [isSchemeChar, Char.isAlphanum, legal.1]
      have colon : d = ':' := by
        rcases onward_cases [':'] s with none | ⟨e, stop, tail, found⟩
        · rw [none] at after
          cases after
        · rw [found] at after
          cases after
          exact List.mem_singleton.mp stop
      have whole : s = (c :: cs) ++ ':' :: rest := by
        conv_lhs => rw [← upTo_append_onward [':'] s, before, after, colon]
      refine ⟨by rw [List.all_cons, first, legal.2]; rfl, whole, ?_⟩
      rw [whole, List.cons_append, List.head?_cons, ne_eq, Option.some.injEq]
      rintro rfl
      cases first
    · cases found
  · cases found

/-- Where the scan finds a host: behind a scheme, or in a text that opens with two slashes. -/
theorem locateHost_some {rest : Text} (located : locateHost s = some (start, host, rest)) :
    ∃ before auth after user port, start = before ++ '/' :: '/' :: user ∧ rest = port ++ after ∧
      hostRange auth = (user, host, port) ∧ s = before ++ '/' :: '/' :: (auth ++ after) ∧
      authorityEnds.Disjoint auth ∧ upTo authorityEnds after = [] ∧
      (before = [] ∨ ∃ scheme, before = scheme ++ [':'] ∧
        schemeEnd s = some (scheme, '/' :: '/' :: (auth ++ after))) := by
  rw [locateHost, authorityRange] at located
  cases scheme : schemeEnd s with
  | none =>
      rw [scheme] at located
      cases stripped : stripPrefix ['/', '/'] s with
      | none =>
          simp only [stripped] at located
          cases located
      | some tail =>
          simp only [stripped] at located
          cases located
          refine ⟨[], upTo authorityEnds tail, onward authorityEnds tail, _, _, rfl, rfl, rfl, ?_,
            disjoint_upTo _ _, upTo_onward _ _, .inl rfl⟩
          rw [upTo_append_onward, List.nil_append]
          exact stripPrefix_eq_some.mp stripped
  | some parts =>
      obtain ⟨name, rest⟩ := parts
      rw [scheme] at located
      cases stripped : stripPrefix ['/', '/'] rest with
      | none =>
          simp only [stripped] at located
          cases located
      | some tail =>
          simp only [stripped] at located
          cases located
          have slashes : rest = '/' :: '/' :: tail := stripPrefix_eq_some.mp stripped
          refine ⟨name ++ [':'], upTo authorityEnds tail, onward authorityEnds tail, _, _, ?_, rfl,
            rfl, ?_, disjoint_upTo _ _, upTo_onward _ _, .inr ⟨name, rfl, ?_⟩⟩
          · rw [List.append_assoc]
            rfl
          · rw [upTo_append_onward, ← slashes, List.append_assoc]
            exact (schemeEnd_some scheme).2.1
          · rw [upTo_append_onward, ← slashes]

/-- Behind a scheme both look at one authority. -/
theorem Opens.located (opens : Opens s) (found : split s = some u)
    (named : u.authority = some authority) :
    ∃ start rest, locateHost s = some (start, (hostRange authority).2.1, rest) := by
  obtain ⟨scheme, rest, scanned⟩ := opens
  obtain ⟨legal, whole, -⟩ := schemeEnd_some scanned
  have pieces := split_absolute legal (disjoint_upTo authorityEnds rest) (upTo_onward _ rest)
  rw [upTo_append_onward, ← whole, found] at pieces
  split at pieces
  · cases pieces
  · cases pieces
    cases named
    rw [locateHost, authorityRange, scanned]
    exact ⟨_, _, rfl⟩

/-! ## What was parsed -/

theorem mapError_ok {α ε δ : Type} {answer : Except ε α} {f : ε → δ} {a : α}
    (ok : answer.mapError f = .ok a) : answer = .ok a := by
  cases answer with
  | error e => cases ok
  | ok b =>
      cases ok
      rfl

theorem isAscii_append (s t : Text) : isAscii (s ++ t) = (isAscii s && isAscii t) := List.all_append

/-- Either nothing but escapes is new in the text that was read, or the host that was found. -/
theorem parse_ok (parsed : parse http idn s = .ok result) :
    (http.fromStr (percentEncode s) = .ok result ∧
        ∀ start host rest, locateHost s = some (start, host, rest) → host.isAscii = true) ∨
      ∃ start host rest x, locateHost s = some (start, host, rest) ∧ host.isAscii = false ∧
        hostToAscii host idn = .ok x ∧
        http.fromStr (percentEncode start ++ (x ++ percentEncode rest)) = .ok result := by
  rw [parse, toAscii] at parsed
  by_cases ascii : s.isAscii = true
  · rw [if_pos ascii] at parsed
    refine .inl ⟨by rw [percentEncode_ascii ascii]; exact mapError_ok parsed, ?_⟩
    intro start host rest located
    obtain ⟨before, auth, after, user, port, -, -, ranged, rfl, -⟩ := locateHost_some located
    obtain ⟨host', port', same, inside, -⟩ := hostRange_cases auth
    rw [ranged] at same
    cases same
    have whole := through_append_behind ['@'] auth
    rw [inside] at whole
    rw [← whole] at ascii
    refine List.all_eq_true.mpr fun c member => List.all_eq_true.mp ascii c ?_
    simp [member]
  · rw [if_neg ascii] at parsed
    cases located : locateHost s with
    | none =>
        rw [located] at parsed
        refine .inl ⟨mapError_ok parsed, fun _ _ _ found => ?_⟩
        cases found
    | some parts =>
        obtain ⟨start, host, rest⟩ := parts
        rw [located] at parsed
        cases narrow : host.isAscii with
        | true =>
            simp only [narrow, if_pos] at parsed
            refine .inl ⟨mapError_ok parsed, fun _ _ _ found => ?_⟩
            cases found
            exact narrow
        | false =>
            cases converted : hostToAscii host idn with
            | error e =>
                simp only [narrow, converted] at parsed
                cases parsed
            | ok x =>
                simp only [narrow, converted] at parsed
                refine .inr ⟨start, host, rest, x, rfl, narrow, converted, ?_⟩
                rw [← List.append_assoc]
                exact mapError_ok parsed

/-- What is read from an ASCII text is ASCII. -/
theorem encoded_of_isAscii (ascii : s.isAscii = true) (found : split s = some u) :
    u.encoded = u := by
  have same := split_percentEncode s
  rw [percentEncode_ascii ascii, found] at same
  exact (Option.some.inj same).symm

theorem isAscii_display (formed : u.Formed) (ascii : u.encoded = u) : u.display.isAscii = true := by
  have scheme : ∀ scheme ∈ u.scheme, scheme.isAscii = true := by
    intro scheme there
    cases formed with
    | absolute legal =>
        cases there
        exact List.all_eq_true.mpr fun c member =>
          decide_eq_true (isSchemeChar_ascii (List.all_eq_true.mp legal c member))
    | _ => cases there
  rw [← ascii, display, isAscii_append, isAscii_append, isAscii_append, encoded]
  have front : isAscii (u.scheme.elim [] (· ++ [':', '/', '/'])) = true := by
    cases there : u.scheme with
    | none => rfl
    | some name =>
        rw [Option.elim_some, isAscii_append, scheme name there]
        rfl
  have middle : ((u.authority.map percentEncode).getD []).isAscii = true := by
    cases u.authority with
    | none => rfl
    | some authority => exact isAscii_percentEncode authority
  have back : isAscii ((u.query.map percentEncode).elim [] ('?' :: ·)) = true := by
    cases u.query with
    | none => rfl
    | some query =>
        change isAscii ('?' :: percentEncode query) = true
        rw [isAscii, List.all_cons]
        exact isAscii_percentEncode query
  rw [front, middle, back, isAscii_percentEncode]
  rfl

/-- `parse` leaves alone what a URI displays. -/
theorem parse_display (idn : Idn) (ascii : s.isAscii = true) (read : http.fromStr s = .ok result) :
    parse http idn result.display = .ok result := by
  have found := http.reads read
  have formed := formed_of_split found
  have plain := isAscii_display formed (encoded_of_isAscii ascii found)
  have again := http.uniform read (split_display formed)
  rw [parse, toAscii, if_pos plain]
  change (http.fromStr result.display).mapError _ = _
  rw [again]
  rfl

theorem split_slash (slash : s.head? = some '/') :
    split s = some ⟨none, none, (splitQuery s).1, (splitQuery s).2⟩ := by
  rw [split, if_neg (by rintro rfl; cases slash), if_pos slash]

theorem splitQuery_append (plain : ['?', '#'].Disjoint s) (t : Text) :
    (splitQuery (s ++ t)).1 = s ++ (splitQuery t).1 := by
  have no_query : ['?'].Disjoint s := List.disjoint_of_subset_left (by simp) plain
  have no_fragment : ['#'].Disjoint s := List.disjoint_of_subset_left (by simp) plain
  rw [splitQuery, upTo_append no_fragment, upTo_append no_query]
  rfl

/-- Escaping every piece is the conversion where the host needs none. -/
theorem converted_encoded_iff (u : HttpUri) :
    Converted idn u u.encoded ↔
      ∀ authority, u.authority = some authority → (hostOf authority).isAscii = true := by
  constructor
  · intro converted authority named
    have related := converted.authority
    rw [named, encoded, named] at related
    cases related with
    | some related =>
      have host := related.2.1
      rw [hostOf, hostOf, authorityParts_percentEncode, HostConverted] at host
      cases narrow : (hostOf authority).isAscii with
      | true => rfl
      | false =>
          rw [hostOf] at narrow
          rw [if_neg (by simp [narrow])] at host
          obtain ⟨_, _, clean⟩ := hostToAscii_ok host
          exact (clean (by simp [neverInHost]) (percent_mem narrow)).elim
  · intro narrow
    refine ⟨rfl, ?_, rfl, rfl⟩
    rw [encoded]
    cases named : u.authority with
    | none => exact .none
    | some authority =>
        have ascii := narrow authority named
        refine .some ⟨?_, ?_, ?_⟩
        · rw [authorityParts_percentEncode]
        rotate_left
        · rw [authorityParts_percentEncode]
        rw [HostConverted, if_pos ascii, hostOf, authorityParts_percentEncode]
        exact percentEncode_ascii ascii

/-- A host that was found behind a scheme is converted in its place. -/
theorem converted_of_scheme {scheme authority after : Text}
    (scanned : schemeEnd s = some (scheme, '/' :: '/' :: (authority ++ after)))
    (whole : authorityEnds.Disjoint authority) (begins : upTo authorityEnds after = [])
    (located : hostRange authority = (start, host, port)) (wide : host.isAscii = false)
    (converted : hostToAscii host idn = .ok x)
    (read : split (percentEncode (scheme ++ ':' :: '/' :: '/' :: start) ++
      (x ++ percentEncode (port ++ after))) = some result) :
    ∃ u, split s = some u ∧ Converted idn u result := by
  obtain ⟨legal, rfl, -⟩ := schemeEnd_some scanned
  have ends : authorityEnds ⊆ delimiters := by simp [authorityEnds, delimiters]
  obtain ⟨_, _, clean⟩ := hostToAscii_ok converted
  obtain ⟨host', port', same, behind, -⟩ := hostRange_cases authority
  rw [located] at same
  cases same
  have pieces := through_append_behind ['@'] authority
  rw [behind] at pieces
  have named : authority ≠ [] := by
    rintro rfl
    rw [behind_of_disjoint (List.disjoint_nil_right _)] at behind
    rw [(List.append_eq_nil_iff.mp behind.symm).1] at wide
    cases wide
  have free := whole
  rw [← pieces, List.disjoint_append_right, List.disjoint_append_right] at free
  have authority' : authorityEnds.Disjoint
      (percentEncode (through ['@'] authority) ++ (x ++ percentEncode port)) := by
    refine List.disjoint_append_right.mpr ⟨disjoint_percentEncode ends free.1,
      List.disjoint_append_right.mpr ⟨?_, disjoint_percentEncode ends free.2.2⟩⟩
    exact List.disjoint_of_subset_left (by simp [authorityEnds, neverInHost]) clean
  have after' : upTo authorityEnds (percentEncode after) = [] := by
    rw [upTo_percentEncode ends, begins]
    rfl
  have ascii : scheme.isAscii = true := List.all_eq_true.mpr fun c member =>
    decide_eq_true (isSchemeChar_ascii (List.all_eq_true.mp legal c member))
  have text : percentEncode (scheme ++ ':' :: '/' :: '/' :: through ['@'] authority) ++
      (x ++ percentEncode (port ++ after)) =
        scheme ++ ':' :: '/' :: '/' :: ((percentEncode (through ['@'] authority) ++
          (x ++ percentEncode port)) ++ percentEncode after) := by
    rw [percentEncode_append, percentEncode_ascii ascii, percentEncode_cons_ascii (by decide),
      percentEncode_cons_ascii (by decide), percentEncode_cons_ascii (by decide)]
    simp only [percentEncode_append, List.append_assoc, List.cons_append]
  refine ⟨_, (split_absolute legal whole begins).trans (if_neg named), ?_⟩
  rw [text, split_absolute legal authority' after'] at read
  split at read
  · cases read
  cases read
  refine ⟨rfl, .some (authorityConverted_of_located located wide converted), ?_, ?_⟩
  · dsimp only
    rw [splitQuery_percentEncode, rooted_percentEncode]
  · dsimp only
    rw [splitQuery_percentEncode]

/-- A host that was found in a path is a piece of the path with the other conversion. -/
theorem not_converted_of_path {authority after : Text} (whole : authorityEnds.Disjoint authority)
    (located : hostRange authority = (start, host, port)) (wide : host.isAscii = false)
    (converted : hostToAscii host idn = .ok x)
    (found : split ('/' :: '/' :: (authority ++ after)) = some u)
    (read : split (percentEncode ('/' :: '/' :: start) ++ (x ++ percentEncode (port ++ after))) =
      some result) : ¬ Converted idn u result := by
  intro same
  obtain ⟨_, _, clean⟩ := hostToAscii_ok converted
  obtain ⟨host', port', ranged, behind, -⟩ := hostRange_cases authority
  rw [located] at ranged
  cases ranged
  have pieces := through_append_behind ['@'] authority
  rw [behind] at pieces
  have stops : ['?', '#'] ⊆ delimiters := by simp [delimiters]
  have free : ['?', '#'].Disjoint authority :=
    List.disjoint_of_subset_left (by simp [authorityEnds]) whole
  have path := same.path
  rw [split_slash rfl] at found
  cases found
  rw [percentEncode_cons_ascii (by decide), percentEncode_cons_ascii (by decide), List.cons_append,
    List.cons_append, split_slash rfl] at read
  cases read
  have slashes : ['?', '#'].Disjoint ['/', '/'] := by simp [List.Disjoint]
  have front : ['?', '#'].Disjoint ('/' :: '/' :: authority) :=
    List.disjoint_append_right.mpr ⟨slashes, free⟩
  rw [← pieces, List.disjoint_append_right, List.disjoint_append_right] at free
  have front' : ['?', '#'].Disjoint ('/' :: '/' :: (percentEncode (through ['@'] authority) ++
      (x ++ percentEncode port))) := by
    refine List.disjoint_append_right.mpr ⟨slashes, List.disjoint_append_right.mpr
      ⟨disjoint_percentEncode stops free.1, List.disjoint_append_right.mpr
        ⟨List.disjoint_of_subset_left (by simp [neverInHost]) clean,
          disjoint_percentEncode stops free.2.2⟩⟩⟩
  have left := splitQuery_append front' (percentEncode after)
  have right := splitQuery_append front after
  simp only [List.cons_append, List.append_assoc] at left right
  simp only [percentEncode_append] at path
  rw [left, right, percentEncode_cons_ascii (by decide), percentEncode_cons_ascii (by decide),
    splitQuery_percentEncode, percentEncode_append] at path
  conv at path =>
    rhs
    rw [← pieces]
  simp only [percentEncode_append, List.append_assoc, List.cons.injEq, true_and,
    List.append_cancel_left_eq] at path
  have replaced : x = percentEncode host := List.append_cancel_right path
  exact clean (by simp [neverInHost]) (replaced ▸ percent_mem wide)

/-- Where nothing is converted the string's own pieces are encoded. -/
theorem rewritten_iff_encoded (read : http.fromStr (percentEncode s) = .ok result)
    (narrow : ∀ start host rest, locateHost s = some (start, host, rest) → host.isAscii = true) :
    Rewritten http idn s result ↔ HostLocated s := by
  have again := parse_display idn (isAscii_percentEncode s) read
  have pieces := http.reads read
  rw [split_percentEncode] at pieces
  obtain ⟨u, found, rfl⟩ := Option.map_eq_some_iff.mp pieces
  constructor
  · rintro ⟨⟨v, same, converted⟩, -⟩
    obtain rfl : u = v := Option.some.inj (found.symm.trans same)
    refine ⟨fun _ => narrow, fun v authority same named wide => ?_⟩
    obtain rfl : u = v := Option.some.inj (found.symm.trans same)
    rw [(converted_encoded_iff u).mp converted authority named] at wide
    cases wide
  · intro placed
    refine ⟨⟨u, found, (converted_encoded_iff u).mpr fun authority named => ?_⟩, again⟩
    by_contra wide
    have opens := placed.behind u authority found named (by simpa using wide)
    obtain ⟨start, rest, located⟩ := opens.located found named
    exact wide (isAscii_of_within (hostOf_within authority) (narrow _ _ _ located))

/-- The host that is converted is the one found behind a scheme, or stands in a path. -/
theorem rewritten_iff_located {rest : Text} (located : locateHost s = some (start, host, rest))
    (wide : host.isAscii = false) (converted : hostToAscii host idn = .ok x)
    (read : http.fromStr (percentEncode start ++ (x ++ percentEncode rest)) = .ok result) :
    Rewritten http idn s result ↔ HostLocated s := by
  obtain ⟨before, auth, after, user, port, first, last, ranged, whole, ends, begins, scanned⟩ :=
    locateHost_some located
  have ascii : isAscii (percentEncode start ++ (x ++ percentEncode rest)) = true := by
    obtain ⟨handle, answered, -⟩ := hostToAscii_ok converted
    rw [isAscii_append, isAscii_append, isAscii_percentEncode, isAscii_percentEncode,
      handle.ascii answered]
    rfl
  have again := parse_display idn ascii read
  have pieces := http.reads read
  rw [first, last] at pieces
  rcases scanned with rfl | ⟨scheme, rfl, scanned⟩
  · rw [List.nil_append] at pieces whole
    refine iff_of_false ?_ fun placed => ?_
    · rintro ⟨⟨u, found, same⟩, -⟩
      exact not_converted_of_path ends ranged wide converted (whole ▸ found) pieces same
    · have narrow := placed.path (by rw [whole]; rfl) _ _ _ located
      rw [wide] at narrow
      cases narrow
  · refine iff_of_true ⟨?_, again⟩ ⟨fun slash => ?_, fun _ _ _ _ _ => ⟨scheme, _, scanned⟩⟩
    · rw [List.append_assoc, List.singleton_append] at pieces
      exact converted_of_scheme scanned ends begins ranged wide converted pieces
    · exact absurd slash (schemeEnd_some scanned).2.2

theorem rewritten_iff (parsed : parse http idn s = .ok result) :
    Rewritten http idn s result ↔ HostLocated s := by
  rcases parse_ok parsed with ⟨read, narrow⟩ | ⟨start, host, rest, x, located, wide, moved, read⟩
  · exact rewritten_iff_encoded read narrow
  · exact rewritten_iff_located located wide moved read

/-! ## A path that opens with two slashes -/

/-- `http::Uri` with no bound of its own. -/
def splitting : HttpParser where
  fromStr s := (split s).elim (.error "invalid format".toList) .ok
  reads {s u} read := by
    cases found : split s with
    | none =>
        rw [found] at read
        cases read
    | some v =>
        rw [found] at read
        cases read
        rfl
  uniform _ found := by rw [found]; rfl

/-- The two probes and a name. -/
def aLabels : List (Text × Text) := ("münchen.de".toList, "xn--mnchen-3ya.de".toList) :: probes

def threeNames : Uts46 where
  toAscii domain := (aLabels.find? fun e => e.1 = domain).map Prod.snd
  ascii answered := by
    obtain ⟨e, found, rfl⟩ := Option.map_eq_some_iff.mp answered
    have ascii : aLabels.all (fun e => isAscii e.2) = true := by decide
    exact List.all_eq_true.mp ascii e (List.mem_of_find?_eq_some found)
  copies answered stop member := by
    obtain ⟨e, found, rfl⟩ := Option.map_eq_some_iff.mp answered
    have plain : aLabels.all (fun e => e.1.all fun c => ¬ [':', '[', ']'].contains c) = true := by
      decide
    have same := List.find?_some found
    have one := List.all_eq_true.mp plain e (List.mem_of_find?_eq_some found)
    rw [of_decide_eq_true same] at one
    have apart := List.all_eq_true.mp one _ member
    simp only [List.contains_iff_mem.mpr stop] at apart
    cases apart

theorem rewritten_iff_scheme :
    Rewritten splitting (.on (some threeNames)) "https://münchen.de/x".toList
      ⟨some "https".toList, some "xn--mnchen-3ya.de".toList, "/x".toList, none⟩ ↔
    HostLocated "https://münchen.de/x".toList :=
  rewritten_iff (by decide +kernel)

/-- The scan takes the text for an authority, `http::Uri` for a path. -/
theorem path_gets_an_a_label :
    parse splitting (.on (some threeNames)) "//münchen.de/x".toList =
        .ok ⟨none, none, "//xn--mnchen-3ya.de/x".toList, none⟩ ∧
      ¬ Rewritten splitting (.on (some threeNames)) "//münchen.de/x".toList
        ⟨none, none, "//xn--mnchen-3ya.de/x".toList, none⟩ := by
  refine ⟨by decide +kernel, ?_⟩
  rintro ⟨⟨u, found, converted⟩, -⟩
  have path : split "//münchen.de/x".toList = some ⟨none, none, "//münchen.de/x".toList, none⟩ := by
    decide +kernel
  rw [path] at found
  cases found
  exact absurd converted.path (by decide +kernel)

end HClient.Sansio
