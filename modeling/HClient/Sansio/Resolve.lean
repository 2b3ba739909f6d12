import HClient.Sansio.DotSegments
import HClient.Sansio.Rewriting

/-!
# References

`resolve_reference`: a reference against a base, by RFC 3986 §5.2.2, recomposed to a text that is
parsed. What is parsed are the components of the target, and where a reference has a scheme and no
authority, what its text is taken for.
-/
namespace HClient.Sansio
open HClient.Text HttpUri Segments

/-- The components of a reference, its fragment dropped. -/
structure Parts where
  scheme : Option Text
  authority : Option Text
  path : Text
  query : Option Text
  deriving DecidableEq, Repr

/-- `Parts::split`. -/
def Parts.split (s : Text) : Parts :=
  let (s, query) := splitQuery s
  let (scheme, s) := match schemeEnd s with
    | some (scheme, rest) => (some scheme, rest)
    | none => (none, s)
  match stripPrefix ['/', '/'] s with
  | some rest => ⟨scheme, some (upTo ['/'] rest), onward ['/'] rest, query⟩
  | none => ⟨scheme, none, s, query⟩

def merge (basePath referencePath : Text) : Text :=
  if basePath = [] then '/' :: referencePath
  else
    match rsplitOnce '/' basePath with
    | some (before, _) => before ++ '/' :: referencePath
    | none => referencePath

/-- The authority, the path and the query of the target. -/
def transform (base : HttpUri) (baseAuthority : Text) (r : Parts) :
    Option Text × Text × Option Text :=
  if r.scheme.isSome then (r.authority, removeDotSegments r.path, r.query)
  else if r.authority.isSome then (r.authority, removeDotSegments r.path, r.query)
  else if r.path = [] then
    (some baseAuthority, base.path, if r.query.isSome then r.query else base.query)
  else if r.path.head? = some '/' then (some baseAuthority, removeDotSegments r.path, r.query)
  else (some baseAuthority, removeDotSegments (merge base.path r.path), r.query)

/-- §5.3. -/
def recompose (scheme : Text) (authority : Option Text) (path : Text) (query : Option Text) :
    Text :=
  scheme ++ ':' :: (authority.elim [] (['/', '/'] ++ ·) ++ path ++ query.elim [] ('?' :: ·))

def resolveReference (http : HttpParser) (idn : Idn) (base : HttpUri) (reference : Text) :
    Except UriError HttpUri :=
  match base.scheme, base.authority with
  | some baseScheme, some baseAuthority =>
      let r := Parts.split reference
      let (authority, path, query) := transform base baseAuthority r
      parse http idn (recompose (r.scheme.getD baseScheme) authority path query)
  | _, _ => .error (.unusableBase base.display)

example : resolveReference splitting .off
    ⟨some "http".toList, some "a".toList, "/b/c/d;p".toList, some "q".toList⟩
      "../g;x=1/./y?z".toList =
    .ok ⟨some "http".toList, some "a".toList, "/b/g;x=1/y".toList, some "z".toList⟩ := by
  decide +kernel

/-! ## The components of a reference -/

variable {s scheme authority path : Text} {query : Option Text} {r : Parts} {base u : HttpUri}
  {http : HttpParser} {idn : Idn}

/-- What holds of the components of every reference. -/
structure Parts.Formed (r : Parts) : Prop where
  scheme : ∀ scheme ∈ r.scheme, ∀ rest, schemeEnd (scheme ++ ':' :: rest) = some (scheme, rest)
  authority : ∀ authority ∈ r.authority, authorityEnds.Disjoint authority
  path : ['?', '#'].Disjoint r.path
  query : ∀ q ∈ r.query, '#' ∉ q
  /-- A path behind an authority is rooted or empty. -/
  rooted : r.authority ≠ none → r.path = [] ∨ r.path.head? = some '/'
  /-- Without an authority a path does not begin as one. -/
  bare : r.authority = none → ¬ ['/', '/'] <+: r.path

/-- A scheme is found again in front of any text. -/
theorem schemeEnd_again {rest : Text} (found : schemeEnd s = some (scheme, rest)) (other : Text) :
    schemeEnd (scheme ++ ':' :: other) = some (scheme, other) := by
  obtain ⟨legal, -, -⟩ := schemeEnd_some found
  have free : [':'].Disjoint scheme := disjoint_scheme legal (by decide)
  rw [schemeEnd] at found ⊢
  rw [upTo_stop free (List.mem_singleton_self _), onward_stop free (List.mem_singleton_self _)]
  split at found
  next c cs d rest' before after =>
    split at found
    next first =>
      cases found
      exact if_pos first
    · cases found
  · cases found

theorem schemeEnd_lettered {tail : Text} (legal : scheme.all isSchemeChar = true)
    (lettered : (schemeEnd (scheme ++ ':' :: tail)).isSome = true) (rest : Text) :
    schemeEnd (scheme ++ ':' :: rest) = some (scheme, rest) := by
  have free : [':'].Disjoint scheme := disjoint_scheme legal (by decide)
  obtain ⟨⟨name, other⟩, found⟩ := Option.isSome_iff_exists.mp lettered
  have whole := (schemeEnd_some found).2.1
  have free' : [':'].Disjoint name := disjoint_scheme (schemeEnd_some found).1 (by decide)
  have same := congrArg (upTo [':']) whole
  rw [upTo_stop free (List.mem_singleton_self _),
    upTo_stop free' (List.mem_singleton_self _)] at same
  rw [same]
  exact schemeEnd_again found rest

theorem onward_slash (s : Text) : onward ['/'] s = [] ∨ (onward ['/'] s).head? = some '/' := by
  rcases onward_cases ['/'] s with none | ⟨c, stop, more, found⟩
  · exact .inl none
  · rw [found, List.mem_singleton.mp stop]
    exact .inr rfl

theorem authority_plain (plain : ['?', '#'].Disjoint s) :
    authorityEnds.Disjoint (upTo ['/'] s) := by
  intro c stop member
  rcases List.mem_cons.mp stop with rfl | stop
  · exact disjoint_upTo ['/'] s (List.mem_singleton_self _) member
  · exact plain stop ((List.takeWhile_sublist _).subset member)

theorem Parts.split_formed (s : Text) : (Parts.split s).Formed := by
  obtain ⟨whole, query, cut⟩ : ∃ path query, splitQuery s = (path, query) := ⟨_, _, rfl⟩
  have plain : ['?', '#'].Disjoint whole := by
    have := splitQuery_plain s
    rwa [cut] at this
  have clear : ∀ q ∈ query, '#' ∉ q := by
    have := splitQuery_clear s
    rwa [cut] at this
  obtain ⟨scheme, rest, scanned, again, inside⟩ : ∃ scheme rest,
      (match schemeEnd whole with
        | some (scheme, rest) => (some scheme, rest)
        | none => (none, whole)) = (scheme, rest) ∧
      (∀ name ∈ scheme, ∀ rest, schemeEnd (name ++ ':' :: rest) = some (name, rest)) ∧
      ∀ c ∈ rest, c ∈ whole := by
    cases found : schemeEnd whole with
    | none => exact ⟨none, whole, rfl, nofun, fun c member => member⟩
    | some parts =>
        obtain ⟨name, rest⟩ := parts
        refine ⟨some name, rest, rfl, fun name' same other => ?_, fun c member => ?_⟩
        · cases same
          exact schemeEnd_again found other
        · rw [(schemeEnd_some found).2.1]
          simp [member]
  have plain' : ['?', '#'].Disjoint rest := fun c stop member => plain stop (inside c member)
  rw [Parts.split, cut]
  simp only [scanned]
  cases stripped : stripPrefix ['/', '/'] rest with
  | none =>
      refine ⟨again, nofun, plain', clear, fun named => absurd rfl named, fun _ slashes => ?_⟩
      obtain ⟨tail, same⟩ := slashes
      rw [stripPrefix_eq_some.mpr same.symm] at stripped
      cases stripped
  | some tail =>
      have text : rest = '/' :: '/' :: tail := stripPrefix_eq_some.mp stripped
      have plain'' : ['?', '#'].Disjoint tail := fun c stop member =>
        plain' stop (by rw [text]; simp [member])
      refine ⟨again, fun authority same => ?_, ?_, clear, fun _ => ?_, fun none => by cases none⟩
      · cases same
        exact authority_plain plain''
      · exact fun c stop member => plain'' stop ((List.dropWhile_sublist _).subset member)
      · exact onward_slash tail

/-! ## The path of the target -/

/-- A path from the root is resolved, and any other in the place of the last segment of the
base. -/
def targetPath (base path : Text) : Text :=
  if path.head? = some '/' then resolved path
  else led '/' (foldedFrom [] ((base.splitOn '/').tail.dropLast ++ path.splitOn '/'))

theorem merge_led {base : Text} (rooted : base.head? = some '/') (path : Text) :
    merge base path = led '/' ((base.splitOn '/').tail.dropLast ++ path.splitOn '/') := by
  obtain ⟨b, rfl⟩ := List.head?_eq_some_iff.mp rooted
  have whole := led_splitOn '/' b
  have clean : ∀ seg ∈ b.splitOn '/', '/' ∉ seg := fun seg member => not_mem_of_splitOn member
  obtain ⟨init, last, segs⟩ : ∃ init last, b.splitOn '/' = init ++ [last] :=
    ⟨_, _, (List.dropLast_append_getLast (List.splitOn_ne_nil '/' b)).symm⟩
  have cut : rsplitOnce '/' ('/' :: b) = some (led '/' init, last) := by
    apply rsplitOnce_eq_some.mpr
    refine ⟨clean last (by simp [segs]), ?_⟩
    rw [← whole, segs, led_append, led_cons, led_nil, List.append_nil]
  rw [merge, if_neg (List.cons_ne_nil _ _), cut, List.splitOn_cons_eq_if_modifyHead,
    if_pos (beq_self_eq_true '/'), List.tail_cons, segs, List.dropLast_concat, led_append,
    led_splitOn]

theorem removeDotSegments_merge {base : Text} (rooted : base.head? = some '/')
    (relative : path.head? ≠ some '/') :
    removeDotSegments (merge base path) = targetPath base path := by
  rw [targetPath, if_neg relative, merge_led rooted]
  refine removeDotSegments_led ?_ fun seg member => ?_
  · exact List.append_ne_nil_of_right_ne_nil _ (List.splitOn_ne_nil '/' path)
  · rcases List.mem_append.mp member with first | second
    · exact not_mem_of_splitOn (List.mem_of_mem_tail (List.dropLast_subset _ first))
    · exact not_mem_of_splitOn second

theorem mem_of_led {c : Char} {segs : List Text} (member : c ∈ led '/' segs) :
    c = '/' ∨ ∃ seg ∈ segs, c ∈ seg := by
  obtain ⟨seg, there, inside⟩ := List.mem_flatMap.mp member
  rcases List.mem_cons.mp inside with slash | inside
  · exact .inl slash
  · exact .inr ⟨seg, there, inside⟩

theorem mem_of_splitOn {c : Char} {seg : Text} (member : seg ∈ s.splitOn '/') (inside : c ∈ seg) :
    c ∈ s := by
  have : c ∈ '/' :: s := by
    rw [← led_splitOn]
    exact List.mem_flatMap.mpr ⟨seg, member, List.mem_cons_of_mem _ inside⟩
  rcases List.mem_cons.mp this with rfl | there
  · exact absurd inside (not_mem_of_splitOn member)
  · exact there

/-- What the segments have none of, the fold has none of. -/
theorem disjoint_folded {stops : List Char} (apart : '/' ∉ stops) {segs : List Text}
    (plain : ∀ seg ∈ segs, stops.Disjoint seg) : stops.Disjoint (led '/' (foldedFrom [] segs)) := by
  intro c stop member
  rcases mem_of_led member with rfl | ⟨seg, there, inside⟩
  · exact apart stop
  · exact mem_foldedFrom (P := fun seg => stops.Disjoint seg) (List.disjoint_nil_right stops)
      (List.forall_mem_nil _) (fun seg member _ => plain seg member) seg there stop inside

theorem targetPath_plain {base : Text} (plain : ['?', '#'].Disjoint base)
    (plain' : ['?', '#'].Disjoint path) : ['?', '#'].Disjoint (targetPath base path) := by
  have segments : ∀ seg ∈ path.splitOn '/', ['?', '#'].Disjoint seg :=
    fun seg member c stop inside => plain' stop (mem_of_splitOn member inside)
  rw [targetPath]
  split
  · rw [resolved, intercalate_led]
    exact disjoint_folded (by decide) fun seg member => segments seg (List.mem_of_mem_tail member)
  · refine disjoint_folded (by decide) fun seg member => ?_
    rcases List.mem_append.mp member with first | second
    · exact fun c stop inside => plain stop
        (mem_of_splitOn (List.mem_of_mem_tail (List.dropLast_subset _ first)) inside)
    · exact segments seg second

theorem targetPath_slash (base path : Text) : (targetPath base path).head? = some '/' := by
  have first : ∀ segs : List Text, segs ≠ [] → (led '/' (foldedFrom [] segs)).head? = some '/' := by
    intro segs occupied
    obtain ⟨seg, rest, same⟩ := List.exists_cons_of_ne_nil (foldedFrom_ne_nil [] occupied)
    rw [same]
    rfl
  rw [targetPath]
  split
  next slash =>
    obtain ⟨b, rfl⟩ := List.head?_eq_some_iff.mp slash
    rw [resolved, intercalate_led]
    refine first _ ?_
    rw [List.splitOn_cons_eq_if_modifyHead, if_pos (beq_self_eq_true '/'), List.tail_cons]
    exact List.splitOn_ne_nil '/' b
  · exact first _ (List.append_ne_nil_of_right_ne_nil _ (List.splitOn_ne_nil '/' path))

/-! ## The loop makes nothing up -/

theorem turn_subset {input out : Text} {c : Char} :
    (c ∈ (turn input out).1 → c ∈ input) ∧ (c ∈ (turn input out).2 → c ∈ out ∨ c ∈ input) := by
  have popped : c ∈ popSegment out → c ∈ out := by
    intro member
    rw [popSegment] at member
    split at member
    next cut =>
      rw [(rsplitOnce_eq_some.mp cut).2]
      exact List.mem_append_left _ member
    · cases member
  have dropped : ∀ n, c ∈ input.drop n → c ∈ input := fun n member => List.mem_of_mem_drop member
  unfold turn
  split
  next rest _ whole =>
    rw [stripPrefix_eq_some.mp whole]
    exact ⟨List.mem_append_right _, .inl⟩
  next rest _ whole =>
    rw [stripPrefix_eq_some.mp whole]
    exact ⟨List.mem_append_right _, .inl⟩
  split
  · exact ⟨dropped 2, .inl⟩
  split
  next same =>
    rw [same]
    exact ⟨fun member => by simp_all, .inl⟩
  split
  · exact ⟨dropped 3, fun member => .inl (popped member)⟩
  split
  next same =>
    rw [same]
    exact ⟨fun member => by simp_all, fun member => .inl (popped member)⟩
  split
  · exact ⟨fun member => (by cases member), .inl⟩
  · exact ⟨dropped _, fun member => (List.mem_append.mp member).imp_right List.mem_of_mem_take⟩

theorem removeFrom_subset {input out : Text} {c : Char} (member : c ∈ removeFrom input out) :
    c ∈ out ∨ c ∈ input := by
  induction input, out using removeFrom.induct with
  | case1 out =>
      rw [removeFrom_nil] at member
      exact .inl member
  | case2 input out left ih =>
      rw [removeFrom_turn left] at member
      rcases ih member with before | rest
      · exact turn_subset.2 before
      · exact .inr (turn_subset.1 rest)

theorem removeDotSegments_plain {stops : List Char} (plain : stops.Disjoint path) :
    stops.Disjoint (removeDotSegments path) := by
  intro c stop member
  rcases removeFrom_subset member with none | inside
  · cases none
  · exact plain stop inside

/-! ## What is parsed -/

theorem split_recompose (legal : scheme.all isSchemeChar = true)
    (whole : authorityEnds.Disjoint authority) (front : path = [] ∨ path.head? = some '/')
    (plain : ['?', '#'].Disjoint path) (clear : ∀ q ∈ query, '#' ∉ q) :
    HttpUri.split (recompose scheme (some authority) path query) =
      if authority = [] then none
      else some ⟨some (normalScheme scheme), some authority, rooted path, query⟩ := by
  have begins : upTo authorityEnds (path ++ query.elim [] ('?' :: ·)) = [] := by
    rcases front with rfl | slash
    · cases query with
      | none => rfl
      | some q => exact upTo_cons (by decide) q
    · obtain ⟨rest, rfl⟩ := List.head?_eq_some_iff.mp slash
      exact upTo_cons (by decide) _
  have text : recompose scheme (some authority) path query =
      scheme ++ ':' :: '/' :: '/' :: (authority ++ (path ++ query.elim [] ('?' :: ·))) := by
    simp [recompose]
  rw [text, split_absolute legal whole begins, splitQuery_eq plain clear]

/-- A text with a scheme and an authority is parsed into its components, converted, unless a host
that is not ASCII stands behind a scheme that does not begin with a letter. -/
theorem converted_recompose_iff (legal : scheme.all isSchemeChar = true)
    (whole : authorityEnds.Disjoint authority) (front : path = [] ∨ path.head? = some '/')
    (plain : ['?', '#'].Disjoint path) (clear : ∀ q ∈ query, '#' ∉ q)
    (parsed : parse http idn (recompose scheme (some authority) path query) = .ok u) :
    Converted idn ⟨some (normalScheme scheme), some authority, rooted path, query⟩ u ↔
      (schemeEnd (scheme ++ [':'])).isSome = true ∨ (hostOf authority).isAscii = true := by
  have pieces := split_recompose legal whole front plain clear
  have text : recompose scheme (some authority) path query =
      scheme ++ ':' :: '/' :: '/' :: (authority ++ path ++ query.elim [] ('?' :: ·)) := by
    simp [recompose]
  have opens (lettered : (schemeEnd (scheme ++ [':'])).isSome = true) :
      Opens (recompose scheme (some authority) path query) :=
    ⟨scheme, _, text ▸ schemeEnd_lettered legal lettered _⟩
  rcases parse_ok parsed with ⟨read, narrow⟩ | ⟨start, host, rest, x, located, wide, moved, read⟩
  · have encoded := http.reads read
    rw [split_percentEncode] at encoded
    obtain ⟨v, found, rfl⟩ := Option.map_eq_some_iff.mp encoded
    have same := found
    rw [pieces] at same
    split at same
    · cases same
    cases same
    rw [converted_encoded_iff]
    refine ⟨fun ascii => .inr (ascii _ rfl), ?_⟩
    rintro (lettered | ascii) _ ⟨⟩
    · obtain ⟨start, rest, located⟩ := (opens lettered).located found rfl
      exact isAscii_of_within (hostOf_within authority) (narrow _ _ _ located)
    · exact ascii
  · have first : (recompose scheme (some authority) path query).head? ≠ some '/' := by
      rw [text]
      cases scheme with
      | nil => nofun
      | cons c cs =>
          rintro ⟨⟩
          exact absurd legal (by simp [isSchemeChar])
    obtain ⟨before, auth, after, user, port, -, -, -, parts, -, -, begins⟩ :=
      locateHost_some located
    rcases begins with rfl | ⟨name, rfl, scanned⟩
    · exact absurd (by rw [parts]; rfl) first
    have lettered : (schemeEnd (scheme ++ [':'])).isSome = true := by
      rw [text] at scanned
      rw [schemeEnd_lettered legal (by rw [scanned]; rfl) []]
      rfl
    refine iff_of_true ?_ (.inl lettered)
    obtain ⟨⟨v, found, converted⟩, -⟩ := (rewritten_iff_located located wide moved read).mpr
      ⟨fun slash => absurd slash first, fun _ _ _ _ _ => opens lettered⟩
    rw [pieces] at found
    split at found
    · cases found
    · cases found
      exact converted

/-- A query makes no slashes. -/
theorem bare_append (bare : ¬ ['/', '/'] <+: path) (query : Option Text) :
    stripPrefix ['/', '/'] (path ++ query.elim [] ('?' :: ·)) = none := by
  rw [Option.eq_none_iff_forall_not_mem]
  intro rest found
  have text := stripPrefix_eq_some.mp found
  rcases path with - | ⟨c, - | ⟨d, path⟩⟩
  · cases query with
    | none => cases text
    | some q => exact absurd (List.cons.inj text).1 (by decide)
  · cases query with
    | none => cases text
    | some q => exact absurd (List.cons.inj (List.cons.inj text).2).1 (by decide)
  · obtain ⟨rfl, more⟩ := List.cons.inj text
    obtain ⟨rfl, -⟩ := List.cons.inj more
    exact bare ⟨path, rfl⟩

/-- A text with a scheme and a path that does not begin as an authority is taken for an
authority. -/
theorem authority_recompose
    (scanned : ∀ rest, schemeEnd (scheme ++ ':' :: rest) = some (scheme, rest))
    (bare : ¬ ['/', '/'] <+: path)
    (parsed : parse http idn (recompose scheme none path query) = .ok u) :
    query = none ∧ '/' ∉ path ∧
      u = ⟨none, some (percentEncode (scheme ++ ':' :: path)), [], none⟩ := by
  let tail := path ++ query.elim [] ('?' :: ·)
  have text : recompose scheme none path query = scheme ++ ':' :: tail := by simp [recompose, tail]
  rw [text] at parsed
  obtain ⟨legal, -, first⟩ := schemeEnd_some (scanned tail)
  have bare' : stripPrefix ['/', '/'] tail = none := bare_append bare query
  have pieces : HttpUri.split (percentEncode (scheme ++ ':' :: tail)) = some u := by
    rcases parse_ok parsed with ⟨read, -⟩ | ⟨start, host, rest, x, located, -⟩
    · exact http.reads read
    · rw [locateHost, authorityRange, scanned] at located
      simp only [bare'] at located
      cases located
  have free : [':'].Disjoint scheme := disjoint_scheme legal (by decide)
  have absolute : splitScheme (scheme ++ ':' :: tail) = none := by
    rw [splitScheme, upTo_stop free (List.mem_singleton_self _), if_pos legal,
      onward_stop free (List.mem_singleton_self _)]
    have beyond : stripPrefix [':', '/', '/'] (':' :: tail) = none := by
      rw [Option.eq_none_iff_forall_not_mem] at bare' ⊢
      intro rest found
      have text := stripPrefix_eq_some.mp found
      exact bare' rest (stripPrefix_eq_some.mpr (List.cons.inj text).2)
    rw [beyond]
    rfl
  have star : scheme ++ ':' :: tail ≠ ['*'] := by
    intro same
    have colon : ':' ∈ ['*'] := same ▸ by simp
    exact absurd colon (by decide)
  have occupied : scheme ++ ':' :: tail ≠ [] :=
    List.append_ne_nil_of_right_ne_nil _ (List.cons_ne_nil _ _)
  rw [split_percentEncode, HttpUri.split, if_neg occupied, if_neg first, if_neg star,
    absolute] at pieces
  dsimp only at pieces
  split at pieces
  next whole =>
    have clean : authorityEnds.Disjoint (scheme ++ ':' :: tail) := by
      have := disjoint_upTo authorityEnds (scheme ++ ':' :: tail)
      have parts := upTo_append_onward authorityEnds (scheme ++ ':' :: tail)
      rw [whole, List.append_nil] at parts
      rwa [parts] at this
    have none : query = none := by
      cases query with
      | none => rfl
      | some q => exact (clean (by decide : '?' ∈ authorityEnds) (by simp [tail])).elim
    subst none
    have path' : tail = path := List.append_nil path
    rw [path'] at pieces clean
    refine ⟨rfl, fun slash => clean (by decide : '/' ∈ authorityEnds) (by simp [slash]), ?_⟩
    cases pieces
    rfl
  · cases pieces

/-- A path that begins with two slashes is taken for an authority and its path. -/
theorem converted_slashes {rest : Text} (legal : scheme.all isSchemeChar = true)
    (lettered : (schemeEnd (scheme ++ [':'])).isSome = true)
    (slashes : path = '/' :: '/' :: rest) (plain : ['?', '#'].Disjoint path)
    (clear : ∀ q ∈ query, '#' ∉ q)
    (parsed : parse http idn (recompose scheme none path query) = .ok u) :
    Converted idn ⟨some (normalScheme scheme), some (upTo ['/'] rest),
      HttpUri.rooted (onward ['/'] rest), query⟩ u := by
  have plain' : ['?', '#'].Disjoint rest :=
    fun c stop member => plain stop (by rw [slashes]; simp [member])
  have text : recompose scheme none path query =
      recompose scheme (some (upTo ['/'] rest)) (onward ['/'] rest) query := by
    conv_lhs => rw [slashes, ← upTo_append_onward ['/'] rest]
    simp [recompose]
  rw [text] at parsed
  refine (converted_recompose_iff legal (authority_plain plain') (onward_slash rest)
    (fun c stop member => plain' stop ((List.dropWhile_sublist _).subset member)) clear parsed).mpr
      (.inl lettered)

/-! ## The result -/

/-- The target of a reference that has an authority, or no scheme. -/
def target (base : HttpUri) (scheme authority : Text) (r : Parts) : HttpUri where
  scheme := some (normalScheme (r.scheme.getD scheme))
  authority := some (r.authority.getD authority)
  path :=
    if r.path = [] then rooted (if r.authority.isSome then [] else base.path)
    else targetPath base.path r.path
  query :=
    if r.authority = none ∧ r.path = [] ∧ r.query = none then base.query else r.query

theorem rooted_of_slash (slash : path.head? = some '/') : rooted path = path := by
  rw [rooted, if_neg (by rintro rfl; cases slash)]

theorem targetPath_of_slash (base : Text) (slash : path.head? = some '/') :
    targetPath base path = resolved path := if_pos slash

theorem resolveReference_parsed {reference : Text} (named : base.scheme = some scheme)
    (placed : base.authority = some authority)
    (answered : resolveReference http idn base reference = .ok u) :
    parse http idn (recompose ((Parts.split reference).scheme.getD scheme)
      (transform base authority (Parts.split reference)).1
      (transform base authority (Parts.split reference)).2.1
      (transform base authority (Parts.split reference)).2.2) = .ok u := by
  rw [resolveReference, named, placed] at answered
  exact answered

/-- A reference with an authority or without a scheme is resolved to its target, unless a host that
is not ASCII is behind a scheme of the base that does not begin with a letter. -/
theorem target_iff (formed : HttpUri.Formed base) (named : base.scheme = some scheme)
    (placed : base.authority = some authority) (parts : r.Formed)
    (hierarchical : r.scheme = none ∨ r.authority ≠ none)
    (parsed : parse http idn (recompose (r.scheme.getD scheme) (transform base authority r).1
      (transform base authority r).2.1 (transform base authority r).2.2) = .ok u) :
    Converted idn (target base scheme authority r) u ↔
      (schemeEnd (r.scheme.getD scheme ++ [':'])).isSome = true ∨
        (hostOf (r.authority.getD authority)).isAscii = true := by
  obtain ⟨_, _, path, query⟩ := base
  obtain rfl : _ = some scheme := named
  obtain rfl : _ = some authority := placed
  obtain ⟨legal, whole, slash, plain, clear⟩ : scheme.all isSchemeChar = true ∧
      authorityEnds.Disjoint authority ∧ path.head? = some '/' ∧ ['?', '#'].Disjoint path ∧
      ∀ q ∈ query, '#' ∉ q := by
    cases formed with
    | absolute legal _ _ whole slash plain clear => exact ⟨legal, whole, slash, plain, clear⟩
  obtain ⟨rscheme, rauthority, rpath, rquery⟩ := r
  obtain ⟨scanned, whole', plain', clear', front, bare⟩ := parts
  cases rauthority with
  | some own =>
      replace parsed : parse http idn (recompose (rscheme.getD scheme) (some own)
          (removeDotSegments rpath) rquery) = .ok u := by
        cases rscheme <;> exact parsed
      have legal' : (rscheme.getD scheme).all isSchemeChar = true := by
        cases rscheme with
        | none => exact legal
        | some name => exact (schemeEnd_some (scanned name rfl [])).1
      rcases front (Option.some_ne_none own) with rfl | slash'
      · rw [show removeDotSegments [] = [] from removeFrom_nil []] at parsed
        have result :=
          converted_recompose_iff legal' (whole' own rfl) (.inl rfl) plain' clear' parsed
        simpa [target] using result
      · have same : removeDotSegments rpath = targetPath path rpath := by
          rw [removeDotSegments_rooted slash', targetPath_of_slash path slash']
        have slash'' := targetPath_slash path rpath
        rw [same] at parsed
        have result := converted_recompose_iff legal' (whole' own rfl) (.inr slash'')
          (targetPath_plain plain plain') clear' parsed
        have occupied : rpath ≠ [] := by rintro rfl; cases slash'
        rw [rooted_of_slash slash''] at result
        simpa [target, occupied] using result
  | none =>
      obtain rfl : rscheme = none := hierarchical.resolve_right fun other => other rfl
      by_cases empty : rpath = []
      · subst empty
        replace parsed : parse http idn (recompose scheme (some authority) path
            (if rquery.isSome then rquery else query)) = .ok u := parsed
        have clear'' : ∀ q ∈ (if rquery.isSome then rquery else query), '#' ∉ q := by
          split
          · exact clear'
          · exact clear
        have result := converted_recompose_iff legal whole (.inr slash) plain clear'' parsed
        cases rquery <;> exact result
      · have same : (transform ⟨some scheme, some authority, path, query⟩ authority
            ⟨none, none, rpath, rquery⟩) = (some authority, targetPath path rpath, rquery) := by
          by_cases slash' : rpath.head? = some '/'
          · simp [transform, empty, slash', removeDotSegments_rooted, targetPath_of_slash]
          · simp [transform, empty, slash', removeDotSegments_merge slash slash']
        rw [same] at parsed
        have slash' := targetPath_slash path rpath
        have result := converted_recompose_iff legal whole (.inr slash')
          (targetPath_plain plain plain') clear' parsed
        rw [rooted_of_slash slash'] at result
        simpa [target, empty] using result

/-- A reference with an authority or without a scheme is resolved to its target: the authority is
its own or else the base's, the path its own or else the base's with the last segment replaced,
and no dots are left of it. The text of a reference with a scheme and no authority is read again:
where its path begins with two slashes, the path is taken for an authority, and else all of it. -/
theorem resolveReference_transforms (http : HttpParser) (idn : Idn)
    (scheme authority path : Text) (query : Option Text)
    (formed : Formed ⟨some scheme, some authority, path, query⟩)
    (lettered : (schemeEnd (scheme ++ [':'])).isSome = true) (reference : Text) (u : HttpUri)
    (answered : resolveReference http idn ⟨some scheme, some authority, path, query⟩ reference =
      .ok u) :
    ((Parts.split reference).scheme = none ∨ (Parts.split reference).authority ≠ none →
      Converted idn (target ⟨some scheme, some authority, path, query⟩ scheme authority
        (Parts.split reference)) u) ∧
    ∀ name, (Parts.split reference).scheme = some name → (Parts.split reference).authority = none →
      (∀ rest, removeDotSegments (Parts.split reference).path = '/' :: '/' :: rest →
        Converted idn ⟨some (normalScheme name), some (upTo ['/'] rest),
          rooted (onward ['/'] rest), (Parts.split reference).query⟩ u) ∧
      (¬ ['/', '/'] <+: removeDotSegments (Parts.split reference).path →
        (Parts.split reference).query = none ∧
          '/' ∉ removeDotSegments (Parts.split reference).path ∧
          u = ⟨none, some (percentEncode (name ++ ':' ::
            removeDotSegments (Parts.split reference).path)), [], none⟩) := by
  have parts := Parts.split_formed reference
  have parsed := resolveReference_parsed rfl rfl answered
  generalize Parts.split reference = r at parts parsed
  refine ⟨fun hierarchical => ?_, fun name named alone => ?_⟩
  · refine (target_iff formed rfl rfl parts hierarchical parsed).mpr (.inl ?_)
    cases named : r.scheme with
    | none => exact lettered
    | some name =>
        rw [Option.getD_some, parts.scheme name named]
        rfl
  · obtain ⟨rscheme, rauthority, rpath, rquery⟩ := r
    cases named
    cases alone
    have scanned := parts.scheme name rfl
    refine ⟨fun rest slashes => ?_, fun flat => authority_recompose scanned flat parsed⟩
    refine converted_slashes (schemeEnd_some (scanned [])).1 (by rw [scanned]; rfl) slashes
      (removeDotSegments_plain parts.path) parts.query parsed

theorem resolveReference_transforms_climb :
    Converted .off ⟨some "http".toList, some "a".toList, "/b/g".toList, none⟩
      ⟨some "http".toList, some "a".toList, "/b/g".toList, none⟩ := by
  have formed : Formed ⟨some "http".toList, some "a".toList, "/b/c/d;p".toList, some "q".toList⟩ :=
    formed_of_split (s := "http://a/b/c/d;p?q".toList) (by decide +kernel)
  have answered : resolveReference splitting .off
      ⟨some "http".toList, some "a".toList, "/b/c/d;p".toList, some "q".toList⟩ "../g".toList =
      .ok ⟨some "http".toList, some "a".toList, "/b/g".toList, none⟩ := by decide +kernel
  exact (resolveReference_transforms splitting .off _ _ _ _ formed (by decide +kernel) _ _
    answered).1 (.inl (by decide +kernel))

/-- The strict transform: a reference with a scheme and no authority has no authority. -/
def strict (base : HttpUri) (scheme authority : Text) (r : Parts) : HttpUri :=
  if r.scheme.isSome ∧ r.authority = none then
    ⟨r.scheme.map normalScheme, none, removeDotSegments r.path, r.query⟩
  else target base scheme authority r

/-- What is resolved is the strict transform just of the references that have an authority or no
scheme, but for a host that is not ASCII behind a scheme of the base that begins with no letter. -/
theorem resolveReference_strict_iff (http : HttpParser) (idn : Idn) (base : HttpUri)
    (formed : Formed base) (scheme authority : Text) (named : base.scheme = some scheme)
    (placed : base.authority = some authority) (reference : Text) (u : HttpUri)
    (answered : resolveReference http idn base reference = .ok u) :
    Converted idn (strict base scheme authority (Parts.split reference)) u ↔
      ((Parts.split reference).scheme = none ∨ (Parts.split reference).authority ≠ none) ∧
        ((Parts.split reference).scheme = none →
          (schemeEnd (scheme ++ [':'])).isSome = true ∨
            (hostOf ((Parts.split reference).authority.getD authority)).isAscii = true) := by
  have parts := Parts.split_formed reference
  have parsed := resolveReference_parsed named placed answered
  generalize Parts.split reference = r at parts parsed
  by_cases hierarchical : r.scheme = none ∨ r.authority ≠ none
  · have alike : ¬ (r.scheme.isSome ∧ r.authority = none) := by
      rintro ⟨own, alone⟩
      rcases hierarchical with none | some
      · rw [none] at own
        cases own
      · exact some alone
    rw [strict, if_neg alike, target_iff formed named placed parts hierarchical parsed,
      and_iff_right hierarchical]
    cases own : r.scheme with
    | none => exact ⟨fun right _ => right, fun right => right rfl⟩
    | some name =>
        have lettered : (schemeEnd (name ++ [':'])).isSome = true := by
          rw [parts.scheme name own]
          rfl
        exact iff_of_true (.inl lettered) nofun
  · refine iff_of_false (fun converted => ?_) fun both => hierarchical both.1
    obtain ⟨own, alone⟩ := not_or.mp hierarchical
    replace alone := not_not.mp alone
    obtain ⟨name, own⟩ := Option.ne_none_iff_exists'.mp own
    obtain ⟨_, _, path, query⟩ := r
    obtain rfl : _ = some name := own
    obtain rfl : _ = none := alone
    have scanned := parts.scheme name rfl
    have bare := converted.authority
    by_cases slashes : ['/', '/'] <+: removeDotSegments path
    · obtain ⟨rest, same⟩ := slashes
      have other := (converted_slashes (schemeEnd_some (scanned [])).1 (by rw [scanned]; rfl)
        same.symm (removeDotSegments_plain parts.path) parts.query parsed).authority
      revert bare other
      cases u.authority <;> rintro ⟨⟩ ⟨⟩
    · obtain ⟨-, -, rfl⟩ := authority_recompose scanned slashes parsed
      cases bare

/-- Against `http://a/`. -/
theorem resolveReference_strict_iff_climb :
    Converted .off ⟨some "http".toList, some "b".toList, "/x".toList, some "y".toList⟩
      ⟨some "http".toList, some "b".toList, "/x".toList, some "y".toList⟩ := by
  have formed : Formed ⟨some "http".toList, some "a".toList, ['/'], none⟩ :=
    formed_of_split (s := "http://a/".toList) (by decide +kernel)
  exact (resolveReference_strict_iff splitting .off _ formed _ _ rfl rfl "//b/w/../x?y#z".toList
    ⟨some "http".toList, some "b".toList, "/x".toList, some "y".toList⟩ (by decide +kernel)).mpr
      ⟨.inl (by decide +kernel), fun _ => .inl (by decide +kernel)⟩

/-- What the dot hides is an authority once it is gone. -/
theorem path_becomes_authority :
    ∃ u, resolveReference splitting .off ⟨some "http".toList, some "a".toList, ['/'], none⟩
        "http:/.//evil.example/x".toList = .ok u ∧ u.authority = some "evil.example".toList ∧
      ¬ Converted .off (strict ⟨some "http".toList, some "a".toList, ['/'], none⟩
        "http".toList "a".toList (Parts.split "http:/.//evil.example/x".toList)) u := by
  refine ⟨⟨some "http".toList, some "evil.example".toList, "/x".toList, none⟩, by decide +kernel,
    rfl, fun converted => ?_⟩
  have bare := converted.authority
  rw [show (strict _ _ _ _).authority = none by decide +kernel] at bare
  cases bare

end HClient.Sansio
