import HClient.Cache.Freshness
import HClient.Cache.KvRuns
import HClient.Core.Reader

/-!
# What an encoded response keeps

Decoding an encoded entry gives it back with its times in whole seconds. What that does to its
age: nothing is made younger as long as the clock does not stand before the receipt, and never by
a second.
-/
namespace HClient.Cache

open Kv Reader
open Hsts (toLeBytes keptExpiry length_toLeBytes)

/-- What a `HeaderName` can be: a token in lower case. -/
structure ValidName (name : HeaderName) : Prop where
  nonempty : name ≠ []
  token : name.all Field.isTokenChar = true
  lower : Text.toAsciiLowercase name = name

/-- What a `HeaderValue` can be. -/
def ValidValue (value : HeaderValue) : Prop :=
  (value.all fun b => (32 ≤ b && b ≠ 127) || b = 9) = true

namespace Selector

/-- The names of neighbours differ. -/
abbrev Told (l : List (HeaderName × Option HeaderValue)) : Prop :=
  l.IsChain fun f g => f.1 ≠ g.1

theorem dedupByName_of_told {l : List (HeaderName × Option HeaderValue)} (told : Told l) :
    dedupByName l = l := by
  fun_induction dedupByName l with
  | case1 => rfl
  | case2 f => rfl
  | case3 f g rest same => exact absurd same (List.isChain_cons_cons.mp told).1
  | case4 f g rest same => exact absurd same (List.isChain_cons_cons.mp told).1
  | case5 f g rest differ ih => rw [ih (List.isChain_cons_cons.mp told).2]

theorem dedupByName_sublist (l : List (HeaderName × Option HeaderValue)) :
    (dedupByName l).Sublist l := by
  fun_induction dedupByName l with
  | case1 => exact .slnil
  | case2 f => exact List.Sublist.refl _
  | case3 f g rest same g' kept eq ih =>
      rw [eq] at ih
      exact (List.sublist_of_cons_sublist ih).cons_cons f
  | case4 f g rest => exact (List.nil_sublist _).cons_cons f
  | case5 f g rest differ ih => exact ih.cons_cons f

theorem told_dedupByName (l : List (HeaderName × Option HeaderValue)) : Told (dedupByName l) := by
  fun_induction dedupByName l with
  | case1 => exact .nil
  | case2 f => exact .singleton f
  | case3 f g rest same g' kept eq ih =>
      have head := dedupByName_head g rest
      rw [eq] at ih head
      cases head
      cases kept with
      | nil => exact .singleton f
      | cons h kept =>
          obtain ⟨differ, tail⟩ := List.isChain_cons_cons.mp ih
          exact List.isChain_cons_cons.mpr ⟨same ▸ differ, tail⟩
  | case4 f g rest => exact .singleton f
  | case5 f g rest differ ih =>
      have head := dedupByName_head g rest
      cases eq : dedupByName (g :: rest) with
      | nil => exact .singleton f
      | cons g' kept =>
          rw [eq] at ih head
          cases head
          exact List.isChain_cons_cons.mpr ⟨differ, ih⟩

/-- A selector built again from its own fields is itself. -/
theorem fromFields_fields (fields : List (HeaderName × Option HeaderValue)) :
    fromFields (fromFields fields).fields = fromFields fields := by
  let le : HeaderName × Option HeaderValue → HeaderName × Option HeaderValue → Prop :=
    fun a b => a.1 ≤ b.1
  have sorted : (fields.insertionSort fun a b => a.1 ≤ b.1).Pairwise fun a b => a.1 ≤ b.1 := by
    have total : Std.Total le := ⟨fun a b => le_total a.1 b.1⟩
    have trans : IsTrans _ le := ⟨fun a b c => le_trans⟩
    exact List.pairwise_insertionSort le fields
  have kept := sorted.sublist (dedupByName_sublist _)
  unfold fromFields
  rw [List.Pairwise.insertionSort_eq kept, dedupByName_of_told (told_dedupByName _)]

end Selector

/-- What the types of a stored response's parts admit. -/
structure StoredResponse.Typed (e : StoredResponse) : Prop where
  status : 100 ≤ e.status ∧ e.status < 1000
  headers : ∀ f ∈ e.headers, ValidName f.1 ∧ ValidValue f.2
  selected : ∀ f ∈ e.selector.fields, ValidName f.1 ∧ ∀ v ∈ f.2, ValidValue v
  selector : ∃ fields, e.selector = Selector.fromFields fields

/-- Every length can be said by its prefix. -/
structure StoredResponse.Fits (e : StoredResponse) : Prop where
  headers : e.headers.length < 2 ^ 32 ∧
    ∀ f ∈ e.headers, (KvStore.nameBytes f.1).length < 2 ^ 16 ∧ f.2.length < 2 ^ 32
  selector : e.selector.fields.length < 2 ^ 32 ∧
    ∀ f ∈ e.selector.fields, (KvStore.nameBytes f.1).length < 2 ^ 16 ∧
      ∀ v ∈ f.2, v.length < 2 ^ 32
  body : e.body.length < 2 ^ 64

/-- The map takes the fields, one after another. -/
def Takes (full : HeaderMap HeaderValue → Bool) (headers : HeaderMap HeaderValue) : Prop :=
  ∀ front f rest, headers = front ++ f :: rest → full front = false

/-- The entry as it is read back, which no request is known of. -/
def StoredResponse.kept (e : StoredResponse) : StoredResponse :=
  { e with
    requestedAt := keptExpiry e.requestedAt
    receivedAt := keptExpiry e.receivedAt
    request := []
    arrived := [] }

namespace KvStore

theorem headerName_nameBytes {name : HeaderName} (valid : ValidName name)
    (fits : (nameBytes name).length < 2 ^ 16) : headerName (nameBytes name) = some name := by
  have decoded : HClient.Bytes.fromUtf8 (nameBytes name) = some name :=
    HClient.Bytes.fromUtf8_utf8 name
  rw [headerName, decoded, Option.bind_some, if_pos ⟨valid.nonempty, valid.token, fits⟩,
    valid.lower]

variable {written : Bytes}

theorem reads_name {n : HeaderName} (valid : ValidName n)
    (wrote : writeBlob 2 (nameBytes n) = some written) : Reads name written n := by
  have fits : (nameBytes n).length < 2 ^ 16 := by
    unfold writeBlob at wrote
    split at wrote
    next small => exact small
    · cases wrote
  have whole := (Reads.blob wrote).bind (f := fun bytes => Reader.some? (headerName bytes))
    (headerName_nameBytes valid fits ▸ Reads.some? n)
  rwa [List.append_nil] at whole

theorem reads_value {v : HeaderValue} (valid : ValidValue v)
    (wrote : writeBlob 4 v = some written) : Reads value written v := by
  have same : headerValue v = some v := if_pos valid
  have whole := (Reads.blob wrote).bind (f := fun bytes => Reader.some? (headerValue bytes))
    (same ▸ Reads.some? v)
  rwa [List.append_nil] at whole

theorem reads_header {f : HeaderName × HeaderValue} (name : ValidName f.1) (value : ValidValue f.2)
    (wrote : encodeHeader f = some written) : Reads header written f := by
  unfold encodeHeader at wrote
  simp only [Option.bind_eq_bind, Option.bind_eq_some_iff, Option.pure_def, Option.some.injEq]
    at wrote
  obtain ⟨nameWritten, wroteName, valueWritten, wroteValue, rfl⟩ := wrote
  refine (reads_name name wroteName).bind ?_
  rw [← List.append_nil valueWritten]
  exact (reads_value value wroteValue).bind (.pure f)

theorem reads_selected {f : HeaderName × Option HeaderValue} (name : ValidName f.1)
    (value : ∀ v ∈ f.2, ValidValue v) (wrote : encodeSelected f = some written) :
    Reads selected written f := by
  obtain ⟨n, present⟩ := f
  unfold encodeSelected at wrote
  simp only [Option.bind_eq_bind, Option.bind_eq_some_iff, Option.pure_def] at wrote
  obtain ⟨nameWritten, wroteName, wrote⟩ := wrote
  cases present with
  | none =>
      cases wrote
      have absent : (0 : Nat) < 256 ^ 1 := by decide
      refine (reads_name name wroteName).bind ?_
      rw [← List.append_nil (toLeBytes 1 0)]
      exact (Reads.number absent).bind (.pure (n, none))
  | some v =>
      simp only [Option.bind_eq_some_iff, Option.some.injEq] at wrote
      obtain ⟨valueWritten, wroteValue, rfl⟩ := wrote
      have there : (1 : Nat) < 256 ^ 1 := by decide
      refine (reads_name name wroteName).bind ((Reads.number there).bind ?_)
      rw [← List.append_nil valueWritten]
      exact (reads_value (value v rfl) wroteValue).bind (.pure (n, some v))

theorem reads_readMany {α : Type} {r : Reader α} {write : α → Option Bytes} {items : List α}
    (reads : ∀ a ∈ items, ∀ w, write a = some w → Reads r w a)
    (wrote : writeMany write items = some written) : Reads (readMany r) written items := by
  unfold writeMany at wrote
  split at wrote
  next small =>
    simp only [Option.bind_eq_bind, Option.bind_eq_some_iff, Option.pure_def, Option.some.injEq]
      at wrote
    obtain ⟨each, wroteEach, rfl⟩ := wrote
    exact (Reads.number small).bind (Reads.times reads wroteEach)
  · cases wrote

theorem atEpochPlus_secs (t : SystemTime) : atEpochPlus (secs t) = some (keptExpiry t) :=
  Hsts.atEpochPlus_expirySecs t

theorem reads_instant (t : SystemTime) : Reads instant (toLeBytes 8 (secs t)) (keptExpiry t) := by
  have small : secs t < 256 ^ 8 := Nat.lt_trans (secs_lt t) (by decide)
  have whole := (Reads.number small).bind (f := fun secs => Reader.some? (atEpochPlus secs))
    (atEpochPlus_secs t ▸ Reads.some? (keptExpiry t))
  rwa [List.append_nil] at whole

theorem versionOf_tag (version : HttpVersion) : versionOf (versionTag version) = some version := by
  cases version <;> rfl

variable {full : HeaderMap HeaderValue → Bool}

theorem reads_appendHeaders (before : HeaderMap HeaderValue) {items : HeaderMap HeaderValue}
    {w : List Bytes}
    (typed : ∀ f ∈ items, ValidName f.1 ∧ ValidValue f.2) (takes : Takes full (before ++ items))
    (wrote : items.mapM encodeHeader = some w) :
    Reads (appendHeaders full items.length before) w.flatten (some (before ++ items)) := by
  induction items generalizing before w with
  | nil =>
      cases wrote
      rw [List.append_nil]
      exact .pure _
  | cons f items ih =>
      rw [List.mapM_cons] at wrote
      obtain ⟨v, first, wrote⟩ := Option.bind_eq_some_iff.mp wrote
      obtain ⟨ws, others, wrote⟩ := Option.bind_eq_some_iff.mp wrote
      cases wrote
      have room : full before = false := takes before f items rfl
      obtain ⟨name, value⟩ := typed f List.mem_cons_self
      have all : before ++ [f] ++ items = before ++ f :: items := by simp
      have later := ih (before ++ [f])
        (fun g member => typed g (List.mem_cons_of_mem _ member)) (by rwa [all]) others
      rw [all] at later
      refine (reads_header name value first).bind ?_
      rw [if_neg (by rw [room]; exact Bool.false_ne_true)]
      exact later

theorem reads_reader {e : StoredResponse} {bytes : Bytes} (typed : e.Typed)
    (takes : Takes full e.headers) (encoded : encode e = some bytes) :
    Reads (reader full) bytes (some e.kept) := by
  unfold encode at encoded
  simp only [Option.bind_eq_bind, Option.bind_eq_some_iff, Option.pure_def, Option.some.injEq]
    at encoded
  obtain ⟨headers, wroteHeaders, fields, wroteFields, body, wroteBody, rfl⟩ := encoded
  have statusFits : e.status < 256 ^ 2 := Nat.lt_trans typed.status.2 (by decide)
  have tagFits : versionTag e.version < 256 ^ 1 := by cases e.version <;> decide
  have status : statusOf e.status = some e.status := if_pos typed.status
  have version := versionOf_tag e.version
  have fieldsRead : Reads (readMany selected) fields e.selector.fields :=
    reads_readMany (fun f member w wrote =>
      reads_selected (typed.selected f member).1 (typed.selected f member).2 wrote) wroteFields
  have selector : Selector.fromFields e.selector.fields = e.selector := by
    obtain ⟨fields, same⟩ := typed.selector
    rw [same, Selector.fromFields_fields]
  have rest : Reads (readRest e.status e.version (keptExpiry e.requestedAt)
      (keptExpiry e.receivedAt) (some e.headers)) (fields ++ body) (some e.kept) := by
    refine fieldsRead.bind ?_
    rw [← List.append_nil body, selector]
    exact (Reads.blob wroteBody).bind (.pure (some e.kept))
  unfold writeMany at wroteHeaders
  split at wroteHeaders
  next few =>
    simp only [Option.bind_eq_bind, Option.bind_eq_some_iff, Option.pure_def, Option.some.injEq]
      at wroteHeaders
    obtain ⟨each, wroteEach, rfl⟩ := wroteHeaders
    have opens : Reads opening (toLeBytes 2 e.status ++ (toLeBytes 1 (versionTag e.version) ++
        (toLeBytes 8 (secs e.requestedAt) ++ (toLeBytes 8 (secs e.receivedAt) ++
          toLeBytes 4 e.headers.length))))
        (e.status, e.version, keptExpiry e.requestedAt, keptExpiry e.receivedAt,
          e.headers.length) := by
      refine (Reads.number statusFits).bind ?_
      rw [status, ← List.nil_append (toLeBytes 1 (versionTag e.version) ++ _)]
      refine (Reads.some? e.status).bind ((Reads.number tagFits).bind ?_)
      rw [version, ← List.nil_append (toLeBytes 8 (secs e.requestedAt) ++ _)]
      refine (Reads.some? e.version).bind ?_
      refine (reads_instant e.requestedAt).bind ((reads_instant e.receivedAt).bind ?_)
      rw [← List.append_nil (toLeBytes 4 e.headers.length)]
      exact (Reads.number few).bind (.pure _)
    have appended := reads_appendHeaders [] typed.headers takes wroteEach
    intro behind
    have whole : Reads (reader full) (_ ++ (each.flatten ++ (fields ++ body))) (some e.kept) :=
      opens.bind (appended.bind rest)
    have ran := whole behind
    simp only [List.append_assoc] at ran ⊢
    exact ran
  · cases wroteHeaders

theorem decode_encode {e : StoredResponse} {bytes : Bytes} (typed : e.Typed)
    (takes : Takes full e.headers) (encoded : encode e = some bytes) :
    decode full bytes = .entry e.kept := by
  have whole := reads_reader typed takes encoded []
  rw [List.append_nil] at whole
  unfold decode
  rw [whole]
  rfl

theorem mapM_isSome {α : Type} {write : α → Option Bytes} {items : List α}
    (each : ∀ a ∈ items, ∃ w, write a = some w) : ∃ written, items.mapM write = some written := by
  induction items with
  | nil => exact ⟨[], rfl⟩
  | cons a items ih =>
      obtain ⟨w, wrote⟩ := each a List.mem_cons_self
      obtain ⟨ws, others⟩ := ih fun b member => each b (List.mem_cons_of_mem _ member)
      exact ⟨w :: ws, by simp [List.mapM_cons, wrote, others]⟩

theorem writeMany_isSome {α : Type} {write : α → Option Bytes} {items : List α}
    (few : items.length < 2 ^ 32) (each : ∀ a ∈ items, ∃ w, write a = some w) :
    ∃ written, writeMany write items = some written := by
  have small : items.length < 256 ^ 4 := Nat.lt_of_lt_of_le few (by decide)
  obtain ⟨written, wrote⟩ := mapM_isSome each
  exact ⟨_, by rw [writeMany, if_pos small, wrote]; rfl⟩

theorem writeBlob_isSome (width : Nat) {bytes : Bytes} (fits : bytes.length < 2 ^ (8 * width)) :
    ∃ written, writeBlob width bytes = some written := by
  have wide : bytes.length < 256 ^ width := by
    rwa [Nat.pow_mul] at fits
  exact ⟨_, if_pos wide⟩

theorem encode_isSome_of_fits {e : StoredResponse} (fits : e.Fits) :
    ∃ bytes, encode e = some bytes := by
  have headers : ∃ written, writeMany encodeHeader e.headers = some written := by
    refine writeMany_isSome fits.headers.1 fun f member => ?_
    obtain ⟨name, value⟩ := fits.headers.2 f member
    obtain ⟨n, wroteName⟩ := writeBlob_isSome 2 name
    obtain ⟨v, wroteValue⟩ := writeBlob_isSome 4 value
    exact ⟨n ++ v, by rw [encodeHeader, wroteName, wroteValue]; rfl⟩
  have fields : ∃ written, writeMany encodeSelected e.selector.fields = some written := by
    refine writeMany_isSome fits.selector.1 fun f member => ?_
    obtain ⟨name, value⟩ := fits.selector.2 f member
    obtain ⟨n, wroteName⟩ := writeBlob_isSome 2 name
    rw [encodeSelected, wroteName]
    cases present : f.2 with
    | none => exact ⟨_, rfl⟩
    | some v =>
        have small : v.length < 2 ^ 32 := value v present
        obtain ⟨w, wroteValue⟩ := writeBlob_isSome 4 small
        exact ⟨n ++ (toLeBytes 1 1 ++ w), by simp [wroteValue]⟩
  obtain ⟨headersWritten, wroteHeaders⟩ := headers
  obtain ⟨fieldsWritten, wroteFields⟩ := fields
  obtain ⟨body, wroteBody⟩ := writeBlob_isSome 8 fits.body
  exact ⟨_, by rw [encode, wroteHeaders, wroteFields, wroteBody]; rfl⟩

/-! ## Bytes from anywhere -/

theorem settled_name : Settled name := (Settled.blob 2).bind fun _ => .some? _

theorem settled_value : Settled value := (Settled.blob 4).bind fun _ => .some? _

theorem settled_instant : Settled instant := (Settled.number 8).bind fun _ => .some? _

theorem settled_header : Settled header :=
  settled_name.bind fun _ => settled_value.bind fun _ => .pure _

theorem settled_selected : Settled selected := by
  refine settled_name.bind fun name => (Settled.number 1).bind fun present => ?_
  split
  · exact .pure _
  · exact settled_value.bind fun _ => .pure _
  · exact .some? _

theorem settled_readMany {α : Type} {r : Reader α} (settled : Settled r) : Settled (readMany r) :=
  (Settled.number 4).bind fun n => settled.times n

theorem settled_appendHeaders (n : Nat) (headers : HeaderMap HeaderValue) :
    Settled (appendHeaders full n headers) := by
  induction n generalizing headers with
  | zero => exact .pure _
  | succ n ih =>
      refine settled_header.bind fun f => ?_
      split
      · exact .pure _
      · exact ih _

theorem settled_opening : Settled opening := by
  refine (Settled.number 2).bind fun _ => (Settled.some? _).bind fun _ => ?_
  refine (Settled.number 1).bind fun _ => (Settled.some? _).bind fun _ => ?_
  refine settled_instant.bind fun _ => settled_instant.bind fun _ => ?_
  exact (Settled.number 4).bind fun _ => .pure _

/-- The decoder takes no more than what its answer is made of. -/
theorem settled_reader : Settled (reader full) := by
  refine settled_opening.bind fun _ => (settled_appendHeaders _ []).bind fun headers => ?_
  cases headers with
  | none => exact .pure _
  | some headers =>
      refine (settled_readMany settled_selected).bind fun _ => ?_
      exact (Settled.blob 8).bind fun _ => .pure _

theorem run_of_decode {e : StoredResponse} {bytes : Bytes} (decoded : decode full bytes = .entry e) :
    (reader full).run bytes = some (some e, []) := by
  unfold decode at decoded
  split at decoded
  · cases decoded
  · cases decoded
  next ran =>
    split_ifs at decoded with none_
    cases decoded
    rw [ran, none_]

theorem reads_of_decode {e : StoredResponse} {bytes : Bytes}
    (decoded : decode full bytes = .entry e) : Reads (reader full) bytes (some e) := by
  obtain ⟨taken, rfl, reads⟩ := settled_reader _ _ _ (run_of_decode decoded)
  rwa [List.append_nil]

/-- The fields in front of one that is given. -/
def fieldsBefore (k : Nat) : Reader (HeaderMap HeaderValue) := do
  let fields ← Reader.times header k
  let _ ← header
  pure fields

/-- The header fields run past what the map takes: one of them is met where it is full. -/
def Overfills (full : HeaderMap HeaderValue → Bool) (bytes : Bytes) : Prop :=
  ∃ front rest, opening.run bytes = some (front, rest) ∧ ∃ k, k < front.2.2.2.2 ∧
    ∃ fields rest', (fieldsBefore k).run rest = some (fields, rest') ∧ full fields = true

theorem overfull_of_appendHeaders {n : Nat} {before : HeaderMap HeaderValue} {bytes rest : Bytes}
    (ran : (appendHeaders full n before).run bytes = some (none, rest)) :
    ∃ k, k < n ∧ ∃ fields rest', (fieldsBefore k).run bytes = some (fields, rest') ∧
      full (before ++ fields) = true := by
  induction n generalizing before bytes with
  | zero => cases ran
  | succ n ih =>
      obtain ⟨f, middle, first, ran⟩ := bind_taken ran
      split at ran
      next there =>
        refine ⟨0, Nat.succ_pos n, [], middle, ?_, by rwa [List.append_nil]⟩
        rw [fieldsBefore, StateT.run_bind]
        change (header >>= fun _ => pure []).run bytes = _
        rw [StateT.run_bind, first]
        rfl
      · obtain ⟨k, less, fields, rest', later, there⟩ := ih ran
        refine ⟨k + 1, Nat.succ_lt_succ less, f :: fields, rest', ?_, by simpa using there⟩
        obtain ⟨fields', middle', times, last⟩ := bind_taken later
        obtain ⟨g, _, given, last⟩ := bind_taken last
        obtain ⟨rfl, rfl⟩ := pure_taken last
        rw [fieldsBefore, StateT.run_bind, Reader.times, StateT.run_bind, first]
        change ((Reader.times header k >>= fun fs => pure (f :: fs)).run middle).bind _ = _
        rw [StateT.run_bind, times]
        change (header >>= fun _ => pure (f :: fields')).run middle' = _
        rw [StateT.run_bind, given]
        rfl

/-- A value is answered or refused, unless its header fields are more than the map takes. -/
theorem overfills_of_decode {bytes : Bytes} (decoded : decode full bytes = .panicked) :
    Overfills full bytes := by
  have panics : ∃ rest, (reader full).run bytes = some (none, rest) := by
    unfold decode at decoded
    split at decoded
    · cases decoded
    next ran => exact ⟨_, ran⟩
    · split_ifs at decoded
  obtain ⟨rest, ran⟩ := panics
  obtain ⟨front, middle, opened, ran⟩ := bind_taken ran
  obtain ⟨headers, middle', appended, ran⟩ := bind_taken ran
  cases headers with
  | none => exact ⟨front, middle, opened, overfull_of_appendHeaders appended⟩
  | some headers =>
      obtain ⟨_, _, -, ran⟩ := bind_taken ran
      obtain ⟨_, _, -, ran⟩ := bind_taken ran
      obtain ⟨there, -⟩ := pure_taken ran
      cases there

theorem instant_taken {bytes rest : Bytes} {t : SystemTime}
    (ran : instant.run bytes = some (t, rest)) :
    ∃ n, n < 256 ^ 8 ∧ bytes = toLeBytes 8 n ++ rest ∧ atEpochPlus n = some t := by
  obtain ⟨n, middle, first, second⟩ := bind_taken ran
  obtain ⟨found, rfl⟩ := some?_taken second
  obtain ⟨small, front⟩ := number_taken first
  exact ⟨n, small, front, found⟩

/-- The two decoders agree on whatever the whole one accepts. -/
theorem receivedAtOf_of_decode {e : StoredResponse} {bytes : Bytes}
    (decoded : decode full bytes = .entry e) :
    (receivedAtOf bytes).bind atEpochPlus = some e.receivedAt := by
  obtain ⟨_, _, opened, ran⟩ := bind_taken (run_of_decode decoded)
  obtain ⟨status, _, readStatus, opened⟩ := bind_taken opened
  have front := (number_taken readStatus).2
  obtain ⟨_, _, checked, opened⟩ := bind_taken opened
  rw [(some?_taken checked).2] at front
  obtain ⟨tag, _, readTag, opened⟩ := bind_taken opened
  rw [(number_taken readTag).2] at front
  obtain ⟨_, _, checked', opened⟩ := bind_taken opened
  rw [(some?_taken checked').2] at front
  obtain ⟨requestedAt, _, readRequested, opened⟩ := bind_taken opened
  obtain ⟨requested, -, written, -⟩ := instant_taken readRequested
  rw [written] at front
  obtain ⟨receivedAt, rest, readReceived, opened⟩ := bind_taken opened
  obtain ⟨received, small, written', found⟩ := instant_taken readReceived
  rw [written'] at front
  obtain ⟨n, _, -, opened⟩ := bind_taken opened
  obtain ⟨rfl, -⟩ := pure_taken opened
  obtain ⟨headers, _, -, ran⟩ := bind_taken ran
  have same : e.receivedAt = receivedAt := by
    cases headers with
    | none =>
        obtain ⟨absent, -⟩ := pure_taken ran
        cases absent
    | some headers =>
        obtain ⟨_, _, -, ran⟩ := bind_taken ran
        obtain ⟨_, _, -, ran⟩ := bind_taken ran
        obtain ⟨there, -⟩ := pure_taken ran
        cases there
        rfl
  have width : (toLeBytes 2 status ++ (toLeBytes 1 tag ++ toLeBytes 8 requested)).length =
      2 + 1 + 8 := by
    simp [length_toLeBytes]
  have read := receivedAtOf_behind width small rest
  simp only [List.append_assoc] at read
  rw [same, front, read, Option.bind_some, found]

end KvStore

/-! ## The age of what is read back -/

/-- An instant from the epoch on is moved back to its second. -/
theorem keptExpiry_back {t : SystemTime} (later : SystemTime.unixEpoch ≤ t) :
    (keptExpiry t).nanos ≤ t.nanos ∧ t.nanos < (keptExpiry t).nanos + nanosPerSec ∧
      (keptExpiry t).WholeSeconds := by
  have positive : 0 ≤ t.nanos := later
  have whole := Hsts.nanos_keptExpiry t
  rw [Hsts.expirySecs, SystemTime.sinceEpoch, if_pos positive, Option.getD_some,
    Duration.asSecs] at whole
  unfold SystemTime.WholeSeconds
  rw [whole]
  simp only [nanosPerSec]
  omega

theorem fromUnix_whole (seconds : Int) : (SystemTime.fromUnix seconds).WholeSeconds := by
  unfold SystemTime.fromUnix
  split
  · exact ⟨seconds, Int.mul_comm ..⟩
  · exact ⟨0, rfl⟩

theorem age_le {value a a' d d' x x' longest : Nat} (apparent : a + x ≤ a' + x')
    (delay : d + x ≤ d' + x') :
    min (max a (value + d) + x) longest ≤ min (max a' (value + d') + x') longest := by
  omega

theorem age_lt {value a a' d d' x x' cut longest : Nat} (some_cut : 0 < cut)
    (apparent : a < a' + cut) (delay : d < d' + cut) (resident : x ≤ x') :
    min (max a (value + d) + x) longest < min (max a' (value + d') + x') longest + cut := by
  omega

section
variable {e : StoredResponse} {now : SystemTime}

theorem dateOf_whole {date : SystemTime} (found : dateOf e = some date) : date.WholeSeconds := by
  obtain ⟨seconds, -, rfl⟩ := Option.map_eq_some_iff.mp found
  exact fromUnix_whole seconds

/-- Of what is read back only the two times differ. -/
theorem currentAge_kept : currentAge e.kept now =
    min (max ((keptExpiry e.receivedAt).nanos -
          ((dateOf e).getD (keptExpiry e.receivedAt)).nanos).toNat
        (ageValue e + ((keptExpiry e.receivedAt).nanos - (keptExpiry e.requestedAt).nanos).toNat) +
      (now.nanos - (keptExpiry e.receivedAt).nanos).toNat) Duration.longest :=
  currentAge_eq e.kept now

variable (requested : SystemTime.unixEpoch ≤ e.requestedAt)
  (received : SystemTime.unixEpoch ≤ e.receivedAt)
include requested received

/-- Without its fractions of a second an entry is no younger, once it is received. -/
theorem currentAge_le_kept (later : e.receivedAt ≤ now) :
    currentAge e now ≤ currentAge e.kept now := by
  obtain ⟨before, near, whole⟩ := keptExpiry_back received
  obtain ⟨before', -, -⟩ := keptExpiry_back requested
  have since : e.receivedAt.nanos ≤ now.nanos := later
  rw [currentAge_kept, currentAge_eq]
  unfold rfcAge
  refine age_le ?_ (by omega)
  cases found : dateOf e with
  | none =>
      simp only [Option.getD_none]
      omega
  | some date =>
      have dateWhole := dateOf_whole found
      simp only [Option.getD_some, SystemTime.WholeSeconds, nanosPerSec] at *
      omega

/-- At no time is it younger by a second. -/
theorem currentAge_lt_kept : currentAge e now < currentAge e.kept now + nanosPerSec := by
  obtain ⟨before, near, -⟩ := keptExpiry_back received
  obtain ⟨before', -, -⟩ := keptExpiry_back requested
  rw [currentAge_kept, currentAge_eq]
  unfold rfcAge
  simp only [nanosPerSec] at *
  refine age_lt (by decide) ?_ (by omega) (by omega)
  cases dateOf e <;> simp only [Option.getD_none, Option.getD_some] <;> omega

end

namespace KvStore

/-- What was put is what is read, in whole seconds from the epoch on; the receipt time that an
eviction compares is the one of the entry; whatever bytes there are, the decoder takes nothing
but what it answers from, and it answers or refuses as long as the map takes the header fields;
and an entry that is read back is never served for younger than the one put, unless the clock
stands before its receipt, and then by less than a second. -/
theorem read_back :
    (∀ full (e : StoredResponse), e.Typed → e.Fits → Takes full e.headers →
      ∃ bytes, encode e = some bytes ∧ decode full bytes = .entry e.kept ∧
        (receivedAtOf bytes).bind atEpochPlus = some e.kept.receivedAt) ∧
    (∀ full bytes, Settled (reader full) ∧
      (decode full bytes = .panicked → Overfills full bytes) ∧
      ∀ e, decode full bytes = .entry e → Reads (reader full) bytes (some e) ∧
        (receivedAtOf bytes).bind atEpochPlus = some e.receivedAt) ∧
    ∀ (e : StoredResponse) (now : SystemTime), SystemTime.unixEpoch ≤ e.requestedAt →
      SystemTime.unixEpoch ≤ e.receivedAt →
        (e.receivedAt ≤ now → currentAge e now ≤ currentAge e.kept now) ∧
          currentAge e now < currentAge e.kept now + nanosPerSec := by
  refine ⟨fun full e typed fits takes => ?_, fun full bytes => ⟨settled_reader,
    overfills_of_decode, fun e decoded => ?_⟩, fun e now requested received =>
      ⟨currentAge_le_kept requested received,
        currentAge_lt_kept requested received⟩⟩
  · obtain ⟨bytes, encoded⟩ := encode_isSome_of_fits fits
    refine ⟨bytes, encoded, decode_encode typed takes encoded, ?_⟩
    rw [receivedAtOf_encode encoded, Option.bind_some, atEpochPlus_secs]
    rfl
  · exact ⟨reads_of_decode decoded, receivedAtOf_of_decode decoded⟩

/-- A map has room for so many names. -/
def holdsAllNames (headers : HeaderMap HeaderValue) : Bool :=
  decide (24576 ≤ (headers.map Prod.fst).dedup.length)

/-- Received half a second into its second, half a second after it was asked for. -/
def halfSecond : StoredResponse where
  status := 200
  version := .http11
  headers := []
  body := []
  selector := ⟨[]⟩
  requestedAt := ⟨1000000000, by decide⟩
  receivedAt := ⟨1500000000, by decide⟩
  request := []
  arrived := []

/-- Received a second and a half before the epoch. -/
def beforeEpoch : StoredResponse := { halfSecond with receivedAt := ⟨-1500000000, by decide⟩ }

/-- Read back, the one entry is younger than it was at an instant before its receipt, and the
other was received at the epoch, which is no truncation of its time. -/
theorem reads_back_younger :
    (encode halfSecond).map (decode holdsAllNames) = some (.entry halfSecond.kept) ∧
      currentAge halfSecond.kept ⟨1000000000, by decide⟩ <
        currentAge halfSecond ⟨1000000000, by decide⟩ ∧
      (encode beforeEpoch).map (decode holdsAllNames) = some (.entry beforeEpoch.kept) ∧
      beforeEpoch.kept.receivedAt = SystemTime.unixEpoch := by
  exact ⟨by decide, by decide, by decide, by decide⟩

end KvStore
end HClient.Cache
