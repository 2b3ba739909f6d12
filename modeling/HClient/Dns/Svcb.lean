import HClient.Connect.Scheduler

/-!
# Service bindings

An HTTPS record in terms that every resolver can produce, and the endpoint that a client may use
of it. A record may list the keys that a client has to understand to use it at all.
-/
namespace HClient.Dns

open Connect (SvcbEndpoint RData)

inductive RawParam where
  | mandatory (keyIds : List Nat)
  | alpn (ids : List (List UInt8))
  | noDefaultAlpn
  | port (port : Nat)
  | ipv4Hint (hints : List (List Nat))
  | ipv6Hint (hints : List (List Nat))
  | ech (configList : List UInt8)
  | other (key : Nat)
  deriving DecidableEq, Repr

def RawParam.key : RawParam → Nat
  | .mandatory _ => 0
  | .alpn _ => 1
  | .noDefaultAlpn => 2
  | .port _ => 3
  | .ipv4Hint _ => 4
  | .ech _ => 5
  | .ipv6Hint _ => 6
  | .other key => key

structure RawBinding where
  priority : Nat
  owner : Text
  target : Text
  params : List RawParam
  ttl : Option Duration
  deriving DecidableEq, Repr

inductive SvcbRecordError where
  | mandatoryKeyAbsent (key : Nat)
  deriving DecidableEq, Repr

def recognisedKeys : List Nat := [0, 1, 2, 3, 4, 5, 6]

namespace RawBinding

def bare (priority : Nat) (target : Text) : SvcbEndpoint where
  priority := priority
  target := target
  alpn := []
  port := none
  ipv4hint := []
  ipv6hint := []
  echConfigList := none

/-- What the loop has of the parameters so far: the mandatory keys and the endpoint. -/
def takeParam (acc : List Nat × SvcbEndpoint) : RawParam → List Nat × SvcbEndpoint
  | .mandatory keyIds => (keyIds, acc.2)
  | .alpn ids => (acc.1, { acc.2 with alpn := ids })
  | .port port => (acc.1, { acc.2 with port := some port })
  | .ipv4Hint hints => (acc.1, { acc.2 with ipv4hint := hints })
  | .ipv6Hint hints => (acc.1, { acc.2 with ipv6hint := hints })
  | .ech configList => (acc.1, { acc.2 with echConfigList := some configList })
  | .noDefaultAlpn => acc
  | .other _ => acc

def checkMandatory (params : List RawParam) (record : Connect.Record) :
    List Nat → Except SvcbRecordError (Option Connect.Record)
  | [] => .ok (some record)
  | key :: keys =>
      if !params.any (fun p => p.key == key) then .error (.mandatoryKeyAbsent key)
      else if !recognisedKeys.contains key then .ok none
      else checkMandatory params record keys

end RawBinding

open RawBinding (bare takeParam checkMandatory) in
def endpointFromBinding (binding : RawBinding) : Except SvcbRecordError (Option Connect.Record) :=
  if binding.priority = 0 then
    -- The parameters of an alias are ignored.
    if binding.target.isEmpty then .ok none
    else .ok (some { Connect.Record.new (.https (bare 0 binding.target)) with ttl := binding.ttl })
  else
    let target := if binding.target.isEmpty then binding.owner else binding.target
    let (mandatory, endpoint) :=
      binding.params.foldl takeParam ([], bare binding.priority target)
    checkMandatory binding.params { Connect.Record.new (.https endpoint) with ttl := binding.ttl }
      mandatory

/-! ## What a record says, whatever the order it says it in -/

namespace RawParam

def keyIds? : RawParam → Option (List Nat)
  | .mandatory keyIds => some keyIds
  | _ => none

def alpn? : RawParam → Option (List (List UInt8))
  | .alpn ids => some ids
  | _ => none

def port? : RawParam → Option Nat
  | .port number => some number
  | _ => none

def ipv4Hint? : RawParam → Option (List (List Nat))
  | .ipv4Hint hints => some hints
  | _ => none

def ipv6Hint? : RawParam → Option (List (List Nat))
  | .ipv6Hint hints => some hints
  | _ => none

def ech? : RawParam → Option (List UInt8)
  | .ech configList => some configList
  | _ => none

end RawParam

namespace RawBinding
variable {α : Type}

/-- The value that the last parameter of a kind gives. -/
def last (f : RawParam → Option α) (params : List RawParam) : Option α :=
  (params.filterMap f).getLast?

/-- The keys that the record says are mandatory. -/
def listed (b : RawBinding) : List Nat := (last RawParam.keyIds? b.params).getD []

def has (b : RawBinding) (key : Nat) : Bool := b.params.any fun p => p.key == key

def recognised (key : Nat) : Bool := recognisedKeys.contains key

/-- The first mandatory key that is absent or that this client does not recognise. -/
def firstUnmet (b : RawBinding) : Option Nat :=
  b.listed.find? fun key => !(b.has key && recognised key)

def endpoint (b : RawBinding) : SvcbEndpoint where
  priority := b.priority
  target := if b.target = [] then b.owner else b.target
  alpn := (last RawParam.alpn? b.params).getD []
  port := last RawParam.port? b.params
  ipv4hint := (last RawParam.ipv4Hint? b.params).getD []
  ipv6hint := (last RawParam.ipv6Hint? b.params).getD []
  echConfigList := last RawParam.ech? b.params

/-- The same record, whose parameters of different keys may stand in another order. -/
structure Reordered (b b' : RawBinding) : Prop where
  priority : b'.priority = b.priority
  owner : b'.owner = b.owner
  target : b'.target = b.target
  ttl : b'.ttl = b.ttl
  params : ∀ key, (b'.params.filter fun p => p.key = key) = b.params.filter fun p => p.key = key

/-- The same parameter, whose mandatory keys may stand in another order. -/
inductive Relisted : RawParam → RawParam → Prop where
  | same (p : RawParam) : Relisted p p
  | mandatory {keyIds keyIds' : List Nat} (listed : keyIds'.Perm keyIds) :
      Relisted (.mandatory keyIds) (.mandatory keyIds')

theorem last_concat (f : RawParam → Option α) (params : List RawParam) (p : RawParam) :
    last f (params ++ [p]) = (f p).or (last f params) := by
  unfold last
  rw [List.filterMap_append]
  cases value : f p <;> simp [value]

/-- Every parameter replaces what one of its kind gave before. -/
theorem foldl_takeParam (params : List RawParam) (priority : Nat) (target : Text) :
    params.foldl takeParam ([], bare priority target) =
      ((last RawParam.keyIds? params).getD [],
        { priority := priority
          target := target
          alpn := (last RawParam.alpn? params).getD []
          port := last RawParam.port? params
          ipv4hint := (last RawParam.ipv4Hint? params).getD []
          ipv6hint := (last RawParam.ipv6Hint? params).getD []
          echConfigList := last RawParam.ech? params }) := by
  induction params using List.reverseRecOn with
  | nil => rfl
  | append_singleton params p ih =>
      rw [List.foldl_concat, ih]
      simp only [last_concat]
      cases p <;> rfl

theorem checkMandatory_eq (b : RawBinding) (record : Connect.Record) (keys : List Nat) :
    checkMandatory b.params record keys =
      match keys.find? fun key => !(b.has key && recognised key) with
      | none => .ok (some record)
      | some key => if b.has key then .ok none else .error (.mandatoryKeyAbsent key) := by
  induction keys with
  | nil => rfl
  | cons key keys ih =>
      rw [checkMandatory]
      change (if !b.has key then _ else if !recognised key then _ else _) = _
      cases present : b.has key with
      | false => simp [present]
      | true =>
          cases known : recognised key with
          | false => simp [present, known]
          | true => simp [present, known, ih]

theorem endpointFromBinding_service {b : RawBinding} (service : b.priority ≠ 0) :
    endpointFromBinding b =
      match b.firstUnmet with
      | none => .ok (some { Connect.Record.new (.https b.endpoint) with ttl := b.ttl })
      | some key => if b.has key then .ok none else .error (.mandatoryKeyAbsent key) := by
  unfold endpointFromBinding
  rw [if_neg service]
  simp only [foldl_takeParam, checkMandatory_eq, List.isEmpty_iff]
  rfl

theorem firstUnmet_none {b : RawBinding} :
    b.firstUnmet = none ↔ ∀ key ∈ b.listed, b.has key = true ∧ recognised key = true := by
  simp [firstUnmet]

theorem firstUnmet_some {b : RawBinding} {key : Nat} (first : b.firstUnmet = some key) :
    key ∈ b.listed ∧ (b.has key = true → recognised key = false) := by
  refine ⟨List.mem_of_find?_eq_some first, fun present => ?_⟩
  have unmet := List.find?_some first
  simpa [present] using unmet

/-! ### The order of the parameters -/

section
variable {b b' : RawBinding}

/-- A kind of parameter is found among those of its key. -/
theorem Reordered.last (h : b.Reordered b') {f : RawParam → Option α} (key : Nat)
    (kind : ∀ p, p.key ≠ key → f p = none) : last f b'.params = last f b.params := by
  have among (params : List RawParam) :
      params.filterMap f = (params.filter fun p => p.key = key).filterMap f := by
    rw [List.filterMap_filter]
    apply List.filterMap_congr
    intro p _
    by_cases same : p.key = key
    · simp [same]
    · simp [same, kind p same]
  unfold RawBinding.last
  rw [among b'.params, h.params, ← among]

theorem Reordered.has (h : b.Reordered b') (key : Nat) : b'.has key = b.has key := by
  have among (params : List RawParam) : (params.any fun p => p.key == key) =
      (params.filter fun p => p.key = key).any fun p => p.key == key := by
    rw [List.any_filter]
    congr 1
    funext p
    simp
  unfold RawBinding.has
  rw [among b'.params, h.params, ← among]

theorem Reordered.listed (h : b.Reordered b') : b'.listed = b.listed := by
  unfold RawBinding.listed
  rw [h.last 0]
  intro p other
  cases p <;> first | rfl | exact absurd rfl other

theorem Reordered.endpoint (h : b.Reordered b') : b'.endpoint = b.endpoint := by
  have kind {α : Type} (f : RawParam → Option α) (key : Nat)
      (kind : ∀ p, p.key ≠ key → f p = none) := h.last (f := f) key kind
  unfold RawBinding.endpoint
  rw [h.priority, h.owner, h.target, kind RawParam.alpn? 1, kind RawParam.port? 3,
    kind RawParam.ipv4Hint? 4, kind RawParam.ipv6Hint? 6, kind RawParam.ech? 5]
  all_goals
    intro p other
    cases p <;> first | rfl | exact absurd rfl other

theorem Reordered.firstUnmet (h : b.Reordered b') : b'.firstUnmet = b.firstUnmet := by
  unfold RawBinding.firstUnmet
  rw [h.listed]
  simp only [h.has]

theorem Reordered.same (h : b.Reordered b') : endpointFromBinding b' = endpointFromBinding b := by
  by_cases alias_ : b.priority = 0
  · unfold endpointFromBinding
    rw [h.priority, if_pos alias_, if_pos alias_, h.target, h.ttl]
  · rw [endpointFromBinding_service alias_, endpointFromBinding_service (by rwa [h.priority]),
      h.firstUnmet, h.endpoint, h.ttl]
    simp only [h.has]

end

/-! ### The order of the mandatory keys -/

section
variable {params params' : List RawParam}

theorem last_cons (f : RawParam → Option α) (p : RawParam) (params : List RawParam) :
    last f (p :: params) = (last f params).or (f p) := by
  unfold last
  cases value : f p with
  | none => simp [value]
  | some a =>
      rw [List.filterMap_cons_some value, List.getLast?_cons]
      cases _ : List.getLast? _ <;> simp

theorem last_relisted (same : List.Forall₂ Relisted params params') {f : RawParam → Option α}
    (kind : ∀ keyIds, f (.mandatory keyIds) = none) : last f params' = last f params := by
  induction same with
  | nil => rfl
  | cons one _ ih =>
      rw [last_cons, last_cons, ih]
      cases one with
      | same p => rfl
      | mandatory listed => rw [kind, kind]

theorem listed_relisted (same : List.Forall₂ Relisted params params') :
    ((last RawParam.keyIds? params').getD []).Perm ((last RawParam.keyIds? params).getD []) := by
  have both : (last RawParam.keyIds? params' = none ∧ last RawParam.keyIds? params = none) ∨
      ∃ keyIds keyIds', last RawParam.keyIds? params' = some keyIds' ∧
        last RawParam.keyIds? params = some keyIds ∧ keyIds'.Perm keyIds := by
    induction same with
    | nil => exact .inl ⟨rfl, rfl⟩
    | cons one _ ih =>
        rw [last_cons, last_cons]
        rcases ih with ⟨none', none_⟩ | ⟨keyIds, keyIds', some', some_, perm⟩
        · rw [none', none_, Option.none_or, Option.none_or]
          cases one with
          | same =>
              rename_i p _ _ _
              cases value : RawParam.keyIds? p with
              | none => exact .inl ⟨rfl, rfl⟩
              | some keyIds => exact .inr ⟨keyIds, keyIds, rfl, rfl, .refl _⟩
          | mandatory listed => exact .inr ⟨_, _, rfl, rfl, listed⟩
        · rw [some', some_]
          exact .inr ⟨keyIds, keyIds', rfl, rfl, perm⟩
  rcases both with ⟨none', none_⟩ | ⟨keyIds, keyIds', some', some_, perm⟩
  · rw [none', none_]
  · rw [some', some_]
    exact perm

theorem has_relisted (same : List.Forall₂ Relisted params params') (key : Nat) :
    (params'.any fun p => p.key == key) = params.any fun p => p.key == key := by
  induction same with
  | nil => rfl
  | cons one _ ih =>
      rw [List.any_cons, List.any_cons, ih]
      cases one with
      | same p => rfl
      | mandatory listed => rfl

theorem endpoint_relisted (b : RawBinding) (same : List.Forall₂ Relisted b.params params') :
    ({ b with params := params' } : RawBinding).endpoint = b.endpoint := by
  unfold endpoint
  rw [last_relisted same fun _ => rfl, last_relisted same fun _ => rfl,
    last_relisted same fun _ => rfl, last_relisted same fun _ => rfl,
    last_relisted same fun _ => rfl]

/-- Absent keys and keys that are not recognised compete for which is listed first. -/
theorem relisted_same (b : RawBinding) (same : List.Forall₂ Relisted b.params params')
    (one : ¬ ((∃ key ∈ b.listed, b.has key = false) ∧
      ∃ key ∈ b.listed, b.has key = true ∧ recognised key = false)) :
    (endpointFromBinding { b with params := params' }).toOption =
      (endpointFromBinding b).toOption := by
  by_cases alias_ : b.priority = 0
  · unfold endpointFromBinding
    simp only [alias_, if_true]
  · rw [endpointFromBinding_service alias_, endpointFromBinding_service (by exact alias_),
      endpoint_relisted b same]
    have has (key : Nat) : ({ b with params := params' } : RawBinding).has key = b.has key :=
      has_relisted same key
    have listed (key : Nat) :
        key ∈ ({ b with params := params' } : RawBinding).listed ↔ key ∈ b.listed :=
      (listed_relisted same).mem_iff
    cases first : b.firstUnmet with
    | none =>
        have all := firstUnmet_none.mp first
        have none' : ({ b with params := params' } : RawBinding).firstUnmet = none := by
          apply firstUnmet_none.mpr
          intro key among
          rw [has]
          exact all key ((listed key).mp among)
        rw [none']
    | some key =>
        obtain ⟨among, unmet⟩ := firstUnmet_some first
        cases first' : ({ b with params := params' } : RawBinding).firstUnmet with
        | none =>
            have met := firstUnmet_none.mp first' key ((listed key).mpr among)
            rw [has] at met
            exact absurd (unmet met.1) (by simp [met.2])
        | some key' =>
            obtain ⟨among', unmet'⟩ := firstUnmet_some first'
            rw [listed] at among'
            rw [has] at unmet'
            simp only [has]
            cases present : b.has key <;> cases present' : b.has key'
            · rfl
            · exact absurd ⟨⟨key, among, present⟩, key', among', present', unmet' present'⟩ one
            · exact absurd ⟨⟨key', among', present'⟩, key, among, present, unmet present⟩ one
            · rfl

end

end RawBinding

open RawBinding

/-- Keys that are absent and keys that are not recognised are looked for in one pass, so that
which of a record's defects is found depends on the order of its mandatory keys. Of parameters
with one key the last counts. -/
theorem endpointFromBinding_order :
    (endpointFromBinding ⟨1, ['o'], ['t'], [.mandatory [7, 3], .other 7], none⟩ = .ok none ∧
      endpointFromBinding ⟨1, ['o'], ['t'], [.mandatory [3, 7], .other 7], none⟩ =
        .error (.mandatoryKeyAbsent 3)) ∧
    endpointFromBinding ⟨1, ['o'], ['t'], [.port 1, .port 2], none⟩ ≠
      endpointFromBinding ⟨1, ['o'], ['t'], [.port 2, .port 1], none⟩ := by
  decide

/-- An alias yields its target. Of a service's mandatory keys the first that is absent or not
recognised decides, and without one the record is the endpoint of its parameters. Which key is
listed first matters to a record only where it lists both kinds. -/
theorem endpointFromBinding_follows (b : RawBinding) :
    (b.priority = 0 → endpointFromBinding b = .ok (if b.target = [] then none
      else some { Connect.Record.new (.https (bare 0 b.target)) with ttl := b.ttl })) ∧
    (b.priority ≠ 0 →
      (∀ key, endpointFromBinding b = .error (.mandatoryKeyAbsent key) ↔
        b.firstUnmet = some key ∧ b.has key = false) ∧
      (endpointFromBinding b = .ok none ↔ ∃ key, b.firstUnmet = some key ∧ b.has key = true) ∧
      (∀ record, endpointFromBinding b = .ok (some record) ↔
        (∀ key ∈ b.listed, b.has key = true ∧ recognised key = true) ∧
          record = { Connect.Record.new (.https b.endpoint) with ttl := b.ttl }) ∧
      ((∀ key ∈ b.listed, b.has key = true) →
        (∀ e, endpointFromBinding b ≠ .error e) ∧
          (endpointFromBinding b = .ok none ↔ ∃ key ∈ b.listed, recognised key = false))) ∧
    (∀ b', b.Reordered b' → endpointFromBinding b' = endpointFromBinding b) ∧
    ∀ params', List.Forall₂ Relisted b.params params' →
      ¬ ((∃ key ∈ b.listed, b.has key = false) ∧
        ∃ key ∈ b.listed, b.has key = true ∧ recognised key = false) →
      (endpointFromBinding { b with params := params' }).toOption =
        (endpointFromBinding b).toOption := by
  refine ⟨fun alias_ => ?_, fun service => ?_, fun b' => Reordered.same, fun _ => b.relisted_same⟩
  · unfold endpointFromBinding
    rw [if_pos alias_]
    cases b.target <;> rfl
  · rw [endpointFromBinding_service service]
    cases first : b.firstUnmet with
    | none =>
        have met := firstUnmet_none.mp first
        refine ⟨by simp, by simp, fun record => ?_, fun _ => ⟨by simp, ?_⟩⟩
        · simp only [Except.ok.injEq, Option.some.injEq, eq_comm (a := record)]
          exact ⟨fun same => ⟨met, same⟩, And.right⟩
        · simp only [reduceCtorEq, Except.ok.injEq, false_iff]
          rintro ⟨key, among, unknown⟩
          exact absurd (met key among).2 (by simp [unknown])
    | some key =>
        obtain ⟨among, unmet⟩ := firstUnmet_some first
        dsimp only
        have some_unmet : ¬ ∀ key ∈ b.listed, b.has key = true ∧ recognised key = true := fun met =>
          absurd (unmet (met key among).1) (by simp [(met key among).2])
        cases present : b.has key with
        | false =>
            refine ⟨fun key' => ?_, by simp [present], fun record => ?_, fun all => ?_⟩
            · simp only [Bool.false_eq_true, if_false, Except.error.injEq, Option.some.injEq,
                SvcbRecordError.mandatoryKeyAbsent.injEq]
              constructor
              · rintro rfl
                exact ⟨rfl, present⟩
              · exact And.left
            · simp [some_unmet]
            · exact absurd (all key among) (by simp [present])
        | true =>
            refine ⟨fun key' => ?_, by simp [present], fun record => ?_, fun all => ?_⟩
            · simp only [if_true, reduceCtorEq, Option.some.injEq, false_iff]
              rintro ⟨rfl, absent⟩
              simp [present] at absent
            · simp [some_unmet]
            · exact ⟨by simp, by simpa using ⟨key, among, unmet present⟩⟩

end HClient.Dns
