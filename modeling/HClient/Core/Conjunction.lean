import Mathlib

/-!
# Conjunctions

Rules that are joined two at a time and in lists, nested as they come. Where the answers of the
rules form a monoid in which joining two multiplies, the answer of a whole conjunction is the
product of its members' answers, next to what every list in it adds of its own.
-/
namespace HClient

inductive Conjunction (P : Type) where
  | one (p : P)
  | both (a b : Conjunction P)
  | all (cs : List (Conjunction P))

namespace Conjunction

variable {P M : Type}

mutual
/-- The rules that are joined, out of their nesting. -/
def members : Conjunction P → List P
  | .one p => [p]
  | .both a b => a.members ++ b.members
  | .all cs => membersOf cs

def membersOf : List (Conjunction P) → List P
  | [] => []
  | c :: cs => c.members ++ membersOf cs
end

mutual
/-- Of each list that occurs, whether it is empty. -/
def lists : Conjunction P → List Bool
  | .one _ => []
  | .both a b => a.lists ++ b.lists
  | .all cs => cs.isEmpty :: listsOf cs

def listsOf : List (Conjunction P) → List Bool
  | [] => []
  | c :: cs => c.lists ++ listsOf cs
end

mutual
/-- The one rule that a conjunction is, where two are joined so and a list so. -/
def joined (both : P → P → P) (all : List P → P) : Conjunction P → P
  | .one p => p
  | .both a b => both (a.joined both all) (b.joined both all)
  | .all cs => all (joinedOf both all cs)

def joinedOf (both : P → P → P) (all : List P → P) : List (Conjunction P) → List P
  | [] => []
  | c :: cs => c.joined both all :: joinedOf both all cs
end

theorem isEmpty_joinedOf (both : P → P → P) (all : List P → P) (cs : List (Conjunction P)) :
    (joinedOf both all cs).isEmpty = cs.isEmpty := by
  cases cs <;> rfl

/-- Without an empty list there is a member. -/
theorem members_ne_nil : ∀ c : Conjunction P, true ∉ c.lists → c.members ≠ []
  | .one _, _ => List.cons_ne_nil _ _
  | .both a b, filled => by
      rw [lists, List.mem_append, not_or] at filled
      rw [members]
      exact List.append_ne_nil_of_left_ne_nil (members_ne_nil a filled.1) _
  | .all [], filled => absurd List.mem_cons_self filled
  | .all (c :: cs), filled => by
      rw [lists, listsOf, List.mem_cons, List.mem_append, not_or, not_or] at filled
      rw [members, membersOf]
      exact List.append_ne_nil_of_left_ne_nil (members_ne_nil c filled.2.1) _

section
variable [Monoid M] {answer : P → M} {mark : Bool → M}

theorem marks_central (central : ∀ b x, mark b * x = x * mark b) (bs : List Bool) (x : M) :
    (bs.map mark).prod * x = x * (bs.map mark).prod := by
  induction bs with
  | nil => rw [List.map_nil, List.prod_nil, one_mul, mul_one]
  | cons b bs ih =>
      calc ((b :: bs).map mark).prod * x
        _ = mark b * ((bs.map mark).prod * x) := by rw [List.map_cons, List.prod_cons, mul_assoc]
        _ = mark b * x * (bs.map mark).prod := by rw [ih, mul_assoc]
        _ = x * ((b :: bs).map mark).prod := by
            rw [central, List.map_cons, List.prod_cons, mul_assoc]

/-- Marks and answers of two parts, put together. -/
theorem answer_append (central : ∀ b x, mark b * x = x * mark b) (bs bs' : List Bool)
    (ps ps' : List P) :
    (bs.map mark).prod * (ps.map answer).prod * ((bs'.map mark).prod * (ps'.map answer).prod) =
      ((bs ++ bs').map mark).prod * ((ps ++ ps').map answer).prod := by
  rw [List.map_append, List.map_append, List.prod_append, List.prod_append, mul_assoc,
    ← mul_assoc (ps.map answer).prod, ← marks_central central bs' (ps.map answer).prod]
  simp only [mul_assoc]

variable {both : P → P → P} {all : List P → P}

mutual
/-- The answer of a conjunction: its lists' marks, and what the members answer. -/
theorem answer_joined (central : ∀ b x, mark b * x = x * mark b)
    (of_both : ∀ p q, answer (both p q) = answer p * answer q)
    (of_all : ∀ ps, answer (all ps) = mark ps.isEmpty * (ps.map answer).prod) :
    ∀ c : Conjunction P, answer (c.joined both all) =
      (c.lists.map mark).prod * (c.members.map answer).prod
  | .one p => by
      rw [joined, lists, members, List.map_singleton, List.prod_singleton, List.map_nil,
        List.prod_nil, one_mul]
  | .both a b => by
      rw [joined, of_both, answer_joined central of_both of_all a,
        answer_joined central of_both of_all b, lists, members]
      exact answer_append central _ _ _ _
  | .all cs => by
      rw [joined, of_all, isEmpty_joinedOf, answer_joinedOf central of_both of_all cs, lists, members,
        List.map_cons, List.prod_cons, mul_assoc]

theorem answer_joinedOf (central : ∀ b x, mark b * x = x * mark b)
    (of_both : ∀ p q, answer (both p q) = answer p * answer q)
    (of_all : ∀ ps, answer (all ps) = mark ps.isEmpty * (ps.map answer).prod) :
    ∀ cs : List (Conjunction P), ((joinedOf both all cs).map answer).prod =
      ((listsOf cs).map mark).prod * ((membersOf cs).map answer).prod
  | [] => by
      rw [joinedOf, listsOf, membersOf, List.map_nil, List.map_nil, List.prod_nil, one_mul]
  | c :: cs => by
      rw [joinedOf, List.map_cons, List.prod_cons, answer_joined central of_both of_all c,
        answer_joinedOf central of_both of_all cs, listsOf, membersOf]
      exact answer_append central _ _ _ _
end

end

end Conjunction
end HClient
