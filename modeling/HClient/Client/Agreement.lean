import HClient.Client.Hops
import HClient.Core.Conjunction

/-!
# What redirect policies agree on

A conjunction of redirect policies, joined by `And` and `All` in whatever nesting: when it
follows, what it grants, and what the order and the nesting have to do with it. A list begins
with a verdict that grants nothing, so whatever stands in one has its grants taken away.
-/
namespace HClient.Client

/-- A protection that a policy may switch off. -/
inductive Grant where
  | preserveMethod
  | keepCredentials
  deriving DecidableEq, Repr

def Allow.gives (allow : Allow) : Grant → Bool
  | .preserveMethod => allow.preserveMethod
  | .keepCredentials => allow.keepCredentials

namespace RedirectVerdict

def follows : RedirectVerdict → Bool
  | .follow _ => true
  | _ => false

def gives : RedirectVerdict → Grant → Bool
  | .follow allow => allow.gives
  | _ => fun _ => false

/-- The verdict, but for the words of a refusal. -/
def unworded : RedirectVerdict → RedirectVerdict
  | .refuse _ => .refuse []
  | verdict => verdict

variable {a b v : RedirectVerdict} {vs vs' : List RedirectVerdict}

/-- The meet of two verdicts as a product: what grants everything takes nothing away. -/
instance : Monoid RedirectVerdict where
  mul := and
  one := .follow ⟨true, true⟩
  mul_assoc a b c := by
    cases a <;> cases b <;> cases c <;> try rfl
    change follow _ = follow _
    rw [follow.injEq]
    simp only [Allow.and, Bool.and_assoc]
  one_mul a := by
    cases a <;> rfl
  mul_one a := by
    cases a with
    | follow allow =>
        change follow ⟨allow.preserveMethod && true, allow.keepCredentials && true⟩ = _
        rw [Bool.and_true, Bool.and_true]
    | stop => rfl
    | refuse why => rfl

theorem mul_def (a b : RedirectVerdict) : a * b = a.and b := rfl

theorem follows_mul (a b : RedirectVerdict) : (a * b).follows = (a.follows && b.follows) := by
  cases a <;> cases b <;> rfl

theorem gives_mul (a b : RedirectVerdict) (grant : Grant) :
    (a * b).gives grant = (a.gives grant && b.gives grant) := by
  cases a with
  | follow allow =>
      cases b with
      | follow allow' => cases grant <;> rfl
      | stop => exact (Bool.and_false _).symm
      | refuse why => exact (Bool.and_false _).symm
  | stop => cases b <;> rfl
  | refuse why => rfl

theorem follows_prod : vs.prod.follows = vs.all follows := by
  induction vs with
  | nil => rfl
  | cons v vs ih => rw [List.prod_cons, follows_mul, ih, List.all_cons]

theorem gives_prod (grant : Grant) : vs.prod.gives grant = vs.all fun v => v.gives grant := by
  induction vs with
  | nil => cases grant <;> rfl
  | cons v vs ih => rw [List.prod_cons, gives_mul, ih, List.all_cons]

theorem unworded_mul (a b : RedirectVerdict) :
    (a * b).unworded = a.unworded * b.unworded := by
  cases a <;> cases b <;> rfl

theorem unworded_comm (a b : RedirectVerdict) : (a * b).unworded = (b * a).unworded := by
  cases a with
  | follow allow =>
      cases b with
      | follow allow' =>
          change follow _ = follow _
          rw [follow.injEq]
          simp only [Allow.and, Bool.and_comm]
      | stop => rfl
      | refuse why => rfl
  | stop => cases b <;> rfl
  | refuse why => cases b <;> rfl

/-- The order decides on nothing but the words of a refusal. -/
theorem unworded_prod (same : vs.Perm vs') : vs.prod.unworded = vs'.prod.unworded := by
  induction same with
  | nil => rfl
  | cons v _ ih => rw [List.prod_cons, List.prod_cons, unworded_mul, unworded_mul, ih]
  | swap v w vs =>
      rw [List.prod_cons, List.prod_cons, List.prod_cons, List.prod_cons, ← mul_assoc,
        ← mul_assoc, unworded_mul, unworded_comm w v, ← unworded_mul]
  | trans _ _ ih ih' => exact ih.trans ih'

theorem plain_central (v : RedirectVerdict) : plain * v = v * plain := by
  cases v with
  | follow allow =>
      change follow ⟨false && _, false && _⟩ = follow ⟨_ && false, _ && false⟩
      simp only [Bool.false_and, Bool.and_false]
  | stop => rfl
  | refuse why => rfl

/-- Taking the grants away changes a verdict that has some, and no other. -/
theorem plain_mul_eq_iff : plain * v = v ↔ ∀ grant, v.gives grant = false := by
  cases v with
  | follow allow =>
      obtain ⟨method, credentials⟩ := allow
      constructor
      · intro same grant
        injection same with same
        injection same with method credentials
        cases grant
        · exact method.symm
        · exact credentials.symm
      · intro none
        have method : method = false := none .preserveMethod
        have credentials : credentials = false := none .keepCredentials
        rw [method, credentials]
        rfl
  | stop => exact ⟨fun _ _ => rfl, fun _ => rfl⟩
  | refuse why => exact ⟨fun _ _ => rfl, fun _ => rfl⟩

/-- What the lists of a conjunction add to it. -/
theorem prod_plain (bs : List Bool) :
    (bs.map fun _ => plain).prod = if bs = [] then 1 else plain := by
  induction bs with
  | nil => rfl
  | cons b bs ih =>
      rw [List.map_cons, List.prod_cons, ih, if_neg (List.cons_ne_nil b bs)]
      split <;> rfl

end RedirectVerdict

namespace RedirectPolicy
open RedirectVerdict

variable {c : Conjunction RedirectPolicy} {hop : ProposedRedirect}

/-- The policy that a conjunction is. -/
def ofConjunction (c : Conjunction RedirectPolicy) : RedirectPolicy := c.joined both all

/-- There is a policy, and every one gives the grant. -/
def AgreeOn (policies : List RedirectPolicy) (hop : ProposedRedirect) (grant : Grant) : Prop :=
  policies ≠ [] ∧ ∀ policy ∈ policies, (policy hop).gives grant = true

/-- The laws of a conjunction at a hop. It is compared with the others over the same policies: all
of them where a list occurs in it, and otherwise those without a list as well. -/
structure Lawful (c : Conjunction RedirectPolicy) (hop : ProposedRedirect) : Prop where
  follows : ∀ allow, ofConjunction c hop = .follow allow →
    ∀ policy ∈ c.members, (policy hop).follows = true
  grants : ∀ allow, ofConjunction c hop = .follow allow →
    ∀ grant, allow.gives grant = true ↔ AgreeOn c.members hop grant
  permuted : ∀ c', (c.lists = [] → c'.lists = []) → c'.members.Perm c.members →
    (ofConjunction c' hop).unworded = (ofConjunction c hop).unworded
  flattened : ∀ c', (c.lists = [] → c'.lists = []) → c'.members = c.members →
    ofConjunction c' hop = ofConjunction c hop

theorem both_eq (a b : RedirectPolicy) (hop : ProposedRedirect) :
    both a b hop = a hop * b hop := by
  unfold both
  split
  next why same => rw [same]; rfl
  · rfl

theorem allFrom_eq (hop : ProposedRedirect) (verdict : RedirectVerdict)
    (policies : List RedirectPolicy) :
    allFrom hop verdict policies = verdict * (policies.map fun policy => policy hop).prod := by
  induction policies generalizing verdict with
  | nil => exact (mul_one verdict).symm
  | cons policy policies ih =>
      rw [List.map_cons, List.prod_cons, ← mul_assoc, mul_def verdict]
      unfold allFrom
      split
      next why same => rw [same]; rfl
      · exact ih _

/-- The verdict of a conjunction: the meet of its members' verdicts, without any grant where a
list occurs. -/
theorem ofConjunction_eq (c : Conjunction RedirectPolicy) (hop : ProposedRedirect) :
    ofConjunction c hop = (if c.lists = [] then 1 else plain) *
      (c.members.map fun policy => policy hop).prod := by
  rw [← prod_plain, ofConjunction]
  have answered := @Conjunction.answer_joined RedirectPolicy RedirectVerdict _
    (fun policy => policy hop) (fun _ => plain) both all (fun _ => plain_central)
    (fun p q => both_eq p q hop) (fun policies => allFrom_eq hop plain policies) c
  exact answered

theorem follows_of_mark {mark v : RedirectVerdict} (met : (mark * v).follows = true) :
    v.follows = true := by
  rw [follows_mul, Bool.and_eq_true] at met
  exact met.2

/-- A conjunction follows only where every member does. -/
theorem follows_ofConjunction {allow : Allow} (followed : ofConjunction c hop = .follow allow) :
    ∀ policy ∈ c.members, (policy hop).follows = true := by
  intro policy member
  rw [ofConjunction_eq] at followed
  have met := follows_of_mark (congrArg RedirectVerdict.follows followed)
  rw [follows_prod, List.all_map, List.all_eq_true] at met
  exact met policy member

theorem gives_members (grant : Grant) :
    (c.members.map fun policy : RedirectPolicy => policy hop).prod.gives grant = true ↔
      ∀ policy ∈ c.members, (policy hop).gives grant = true := by
  rw [gives_prod, List.all_map, List.all_eq_true]
  rfl

/-- Without an agreement taking the grants away changes nothing. -/
theorem plain_of_no_agreement (none : ∀ grant, ¬ AgreeOn c.members hop grant)
    (occupied : c.members ≠ []) :
    plain * (c.members.map fun policy => policy hop).prod =
      (c.members.map fun policy => policy hop).prod := by
  apply plain_mul_eq_iff.mpr
  intro grant
  apply Bool.eq_false_iff.mpr
  intro given
  exact none grant ⟨occupied, (gives_members grant).mp given⟩

/-- Where every member follows, they are without a list, or agree on nothing: the laws hold. -/
theorem lawful_of (fair : c.lists = [] ∨ (∃ policy ∈ c.members, (policy hop).follows = false) ∨
    ∀ grant, ¬ AgreeOn c.members hop grant) : Lawful c hop := by
  -- one of the other two where a list occurs: a member that does not follow gives nothing
  have none : c.lists ≠ [] → ∀ grant, ¬ AgreeOn c.members hop grant := by
    intro listed grant agree
    rcases fair with plain | ⟨policy, member, stays⟩ | none
    · exact listed plain
    · have given := agree.2 policy member
      cases said : policy hop with
      | follow allow => rw [said] at stays; cases stays
      | stop => rw [said] at given; cases given
      | refuse why => rw [said] at given; cases given
    · exact none grant agree
  -- every conjunction it is compared with answers the meet of the members, too
  have met : ∀ c' : Conjunction RedirectPolicy, (c.lists = [] → c'.lists = []) →
      c'.members.Perm c.members → c.members ≠ [] →
      ofConjunction c' hop = (c'.members.map fun policy => policy hop).prod := by
    intro c' kind same occupied
    rw [ofConjunction_eq]
    split
    · exact one_mul _
    next listed =>
      apply plain_of_no_agreement
      · intro grant agree
        exact none (fun plain => listed (kind plain)) grant
          ⟨occupied, fun policy member => agree.2 policy (same.symm.subset member)⟩
      · intro empty
        rw [empty] at same
        exact occupied same.symm.eq_nil
  have empty : ∀ c' : Conjunction RedirectPolicy, c'.members = [] → ofConjunction c' hop = plain := by
    intro c' empty
    have listed : c'.lists ≠ [] := by
      intro plain
      apply c'.members_ne_nil _ empty
      rw [plain]
      exact List.not_mem_nil
    rw [ofConjunction_eq, if_neg listed, empty]
    rfl
  refine ⟨fun allow => follows_ofConjunction, ?_, ?_, ?_⟩
  · intro allow followed grant
    by_cases occupied : c.members = []
    · rw [empty c occupied] at followed
      cases followed
      constructor
      · intro given
        cases grant <;> cases given
      · exact fun agree => absurd occupied agree.1
    · rw [met c id (List.Perm.refl _) occupied] at followed
      have given := @gives_members c hop grant
      rw [followed] at given
      exact given.trans ⟨fun all => ⟨occupied, all⟩, fun agree => agree.2⟩
  · intro c' kind same
    by_cases occupied : c.members = []
    · rw [occupied] at same
      rw [empty c occupied, empty c' same.eq_nil]
    · rw [met c' kind same occupied, met c id (List.Perm.refl _) occupied]
      exact unworded_prod (same.map _)
  · intro c' kind same
    by_cases occupied : c.members = []
    · rw [empty c occupied, empty c' (same.trans occupied)]
    · have perm : c'.members.Perm c.members := List.Perm.of_eq same
      rw [met c' kind perm occupied, met c id (List.Perm.refl _) occupied, same]

/-- A conjunction keeps its laws exactly where no list occurs in it, some member does not follow,
or there is no grant that all of them give. -/
theorem lawful_iff (c : Conjunction RedirectPolicy) (hop : ProposedRedirect) :
    Lawful c hop ↔ c.lists = [] ∨ (∃ policy ∈ c.members, (policy hop).follows = false) ∨
      ∀ grant, ¬ AgreeOn c.members hop grant := by
  refine ⟨fun lawful => ?_, lawful_of⟩
  by_contra unfair
  rw [not_or, not_or] at unfair
  obtain ⟨listed, follow, agree⟩ := unfair
  push Not at follow agree
  obtain ⟨grant, agree⟩ := agree
  have followed : (c.members.map fun policy : RedirectPolicy => policy hop).prod.follows = true := by
    rw [follows_prod, List.all_map, List.all_eq_true]
    exact fun policy member => Bool.not_eq_false _ ▸ follow policy member
  have said := ofConjunction_eq c hop
  rw [if_neg listed] at said
  cases meet : (c.members.map fun policy : RedirectPolicy => policy hop).prod with
  | follow allow =>
      rw [meet] at said
      have given := (lawful.grants _ said grant).mpr agree
      cases grant <;> cases given
  | stop => rw [meet] at followed; cases followed
  | refuse why => rw [meet] at followed; cases followed

/-- A policy that follows and grants everything. -/
def trusting : RedirectPolicy := fun _ => .follow ⟨true, true⟩

def moved : ProposedRedirect :=
  ⟨⟨some .https, none, none⟩, ⟨some .https, none, none⟩, 307, .post, false, 0, []⟩

/-- In a list alone, it has lost its grants. -/
theorem trusting_listed : ¬ Lawful (.all [.one trusting]) moved := by
  intro lawful
  have agreed := (lawful.grants ⟨false, false⟩ rfl .preserveMethod).mpr
    ⟨List.cons_ne_nil _ _, fun policy member => by
      rw [List.mem_singleton.mp member]
      rfl⟩
  cases agreed

end RedirectPolicy
end HClient.Client
