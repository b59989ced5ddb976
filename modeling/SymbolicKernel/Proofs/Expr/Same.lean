import SymbolicKernel.Expr.Same
import SymbolicKernel.Proofs.Double.Value
import SymbolicKernel.Proofs.Session

namespace SymbolicKernel

/-- All that identity depends on in a real number: for an inexact one its exact value only. -/
inductive RealIdentity where
  | integer (n : Int)
  | rational (x : Rat)
  | inexact (x : Rat)

inductive NumberIdentity where
  | real (x : RealIdentity)
  | complex (re im : RealIdentity)

/-- All that identity depends on in an expression. -/
inductive Identity where
  | symbol (name : String)
  | string (text : String)
  | number (n : NumberIdentity)
  | compound (head : Identity) (leaves : List Identity)

namespace RealNumber

def identity : RealNumber → RealIdentity
  | integer n => .integer n
  | rational x => .rational x
  | machine x => .inexact x.toRat
  | precise x => .inexact x.toRat

/-- The three ways to compare, as whole numbers, as doubles and as exact values, are one comparison. -/
theorem same_iff (a b : RealNumber) : a.same b = true ↔ a.identity = b.identity := by
  cases a <;> cases b <;> simp [same, identity, MachineReal.sameValue_iff]

end RealNumber

namespace Number

def identity : Number → NumberIdentity
  | real x => .real x.identity
  | complex re im => .complex re.identity im.identity

theorem same_iff (a b : Number) : a.same b = true ↔ a.identity = b.identity := by
  cases a <;> cases b <;> simp [same, identity, RealNumber.same_iff]

end Number

namespace Expr

mutual

def identity : Expr → Identity
  | symbol s => .symbol s.qualifiedName
  | number n => .number n.identity
  | string text => .string text
  | compound head leaves => .compound head.identity (identities leaves)

def identities : List Expr → List Identity
  | [] => []
  | e :: es => e.identity :: identities es

end

mutual

/-- Among expressions of the symbols of one table, the same are those of one identity: there no two names share an
instance, so to compare instances first decides nothing. -/
theorem same_iff {table : SymbolTable} (sound : table.Sound) : (a b : Expr) →
    (∀ s, a.Mentions s → table.Holds s) → (∀ s, b.Mentions s → table.Holds s) →
    (a.same b = true ↔ a.identity = b.identity)
  | symbol s, symbol t, left, right => by
    have instances := sound.isInstance_iff (left s .symbol) (right t .symbol)
    simp [same, identity, instances]
  | number m, number n, _, _ => by simp [same, identity, Number.same_iff]
  | string s, string t, _, _ => by simp [same, identity]
  | compound a as, compound b bs, left, right => by
    have heads := same_iff sound a b (fun s inside => left s (.head inside)) (fun s inside => right s (.head inside))
    have rests := sameAll_iff sound as bs (fun e member s inside => left s (.leaf member inside))
      (fun e member s inside => right s (.leaf member inside))
    simp [same, identity, heads, rests]
  | symbol _, number _, _, _ | symbol _, string _, _, _ | symbol _, compound _ _, _, _
  | number _, symbol _, _, _ | number _, string _, _, _ | number _, compound _ _, _, _
  | string _, symbol _, _, _ | string _, number _, _, _ | string _, compound _ _, _, _
  | compound _ _, symbol _, _, _ | compound _ _, number _, _, _ | compound _ _, string _, _, _ => by
    simp [same, identity]

theorem sameAll_iff {table : SymbolTable} (sound : table.Sound) : (as bs : List Expr) →
    (∀ e ∈ as, ∀ s, e.Mentions s → table.Holds s) → (∀ e ∈ bs, ∀ s, e.Mentions s → table.Holds s) →
    (sameAll as bs = true ↔ identities as = identities bs)
  | [], [], _, _ => by simp [sameAll, identities]
  | [], b :: bs, _, _ => by simp [sameAll, identities]
  | a :: as, [], _, _ => by simp [sameAll, identities]
  | a :: as, b :: bs, left, right => by
    have heads := same_iff sound a b (left a List.mem_cons_self) (right b List.mem_cons_self)
    have rests := sameAll_iff sound as bs (fun e member => left e (List.mem_cons_of_mem _ member))
      (fun e member => right e (List.mem_cons_of_mem _ member))
    simp [sameAll, identities, heads, rests]

end

mutual

/-- Every expression is the same as itself, wherever its symbols are from. -/
theorem same_self : (e : Expr) → e.same e = true
  | symbol s => by simp [same, Symbol.isInstance]
  | number n => by simp [same, Number.same_iff]
  | string text => by simp [same]
  | compound head leaves => by simp [same, same_self head, sameAll_self leaves]

theorem sameAll_self : (es : List Expr) → sameAll es es = true
  | [] => rfl
  | e :: es => by simp [sameAll, same_self e, sameAll_self es]

end

end Expr

/-- A number as it lies in memory, where a complex one has an address. -/
inductive StoredNumber where
  | real (x : RealNumber)
  | complex (address : Nat) (re im : RealNumber)

/-- An expression as it lies in memory: texts and compounds have addresses, and one of them may be a part of several
expressions. -/
inductive Stored where
  | symbol (s : Symbol)
  | number (n : StoredNumber)
  | string (address : Nat) (text : String)
  | compound (address : Nat) (head : Stored) (leaves : List Stored)

namespace StoredNumber

def value : StoredNumber → Number
  | real x => .real x
  | complex _ re im => .complex re im

/-- Identity of numbers that stops at one address. -/
def same : StoredNumber → StoredNumber → Bool
  | real a, real b => a.same b
  | complex p a b, complex q c d => p == q || (a.same c && b.same d)
  | _, _ => false

end StoredNumber

namespace Stored

mutual

def value : Stored → Expr
  | symbol s => .symbol s
  | number n => .number n.value
  | string _ text => .string text
  | compound _ head leaves => .compound head.value (values leaves)

def values : List Stored → List Expr
  | [] => []
  | e :: es => e.value :: values es

end

mutual

/-- Identity of expressions that stops at one instance or at one address. -/
def same : Stored → Stored → Bool
  | symbol a, symbol b => a.isInstance b || a.qualifiedName == b.qualifiedName
  | compound p a as, compound q b bs => p == q || (as.length == bs.length && same a b && samePairs as bs)
  | string p a, string q b => p == q || a == b
  | number a, number b => a.same b
  | _, _ => false

/-- Whether the members of two rows are the same pair by pair, as far as both rows go. -/
def samePairs : List Stored → List Stored → Bool
  | a :: as, b :: bs => same a b && samePairs as bs
  | _, _ => true

end

/-- All parts of an expression lie where their addresses say. What lies at an address never changes. -/
inductive LiesIn (memory : Nat → Expr) : Stored → Prop
  | symbol {s : Symbol} : LiesIn memory (.symbol s)
  | real {x : RealNumber} : LiesIn memory (.number (.real x))
  | complex {p : Nat} {re im : RealNumber} :
      memory p = .number (.complex re im) → LiesIn memory (.number (.complex p re im))
  | string {p : Nat} {text : String} : memory p = .string text → LiesIn memory (.string p text)
  | compound {p : Nat} {head : Stored} {leaves : List Stored} :
      memory p = .compound head.value (values leaves) → LiesIn memory head → (∀ e ∈ leaves, LiesIn memory e) →
      LiesIn memory (.compound p head leaves)

mutual

/-- One address holds one value, and a value is the same as itself, so to stop there decides nothing. -/
theorem same_eq {memory : Nat → Expr} : (a b : Stored) → a.LiesIn memory → b.LiesIn memory →
    a.same b = a.value.same b.value
  | symbol s, symbol t, _, _ => by simp [same, value, Expr.same]
  | number (.real x), number (.real y), _, _ => by
    simp [same, StoredNumber.same, value, StoredNumber.value, Expr.same, Number.same]
  | number (.complex p a b), number (.complex q c d), .complex atLeft, .complex atRight => by
    by_cases shared : p = q
    · subst shared
      have one := atLeft.symm.trans atRight
      simp only [Expr.number.injEq, Number.complex.injEq] at one
      simp [same, StoredNumber.same, value, StoredNumber.value, Expr.same, Number.same_iff, one]
    · simp [same, StoredNumber.same, value, StoredNumber.value, Expr.same, Number.same, shared]
  | string p s, string q t, .string atLeft, .string atRight => by
    by_cases shared : p = q
    · subst shared
      have one := atLeft.symm.trans atRight
      simp only [Expr.string.injEq] at one
      simp [same, value, Expr.same, one]
    · simp [same, value, Expr.same, shared]
  | compound p a as, compound q b bs, .compound atLeft left lefts, .compound atRight right rights => by
    by_cases shared : p = q
    · subst shared
      have one := atLeft.symm.trans atRight
      simp only [same, value, beq_self_eq_true, Bool.true_or, one, Expr.same_self]
    · have heads := same_eq a b left right
      have rests := samePairs_eq as bs lefts rights
      rw [value, value, Expr.same, same, heads, ← rests]
      simp [shared, Bool.and_left_comm, Bool.and_assoc]
  | number (.real _), number (.complex _ _ _), _, _ | number (.complex _ _ _), number (.real _), _, _ => by
    simp [same, StoredNumber.same, value, StoredNumber.value, Expr.same, Number.same]
  | symbol _, number _, _, _ | symbol _, string _ _, _, _ | symbol _, compound _ _ _, _, _
  | number _, symbol _, _, _ | number _, string _ _, _, _ | number _, compound _ _ _, _, _
  | string _ _, symbol _, _, _ | string _ _, number _, _, _ | string _ _, compound _ _ _, _, _
  | compound _ _ _, symbol _, _, _ | compound _ _ _, number _, _, _ | compound _ _ _, string _ _, _, _ => by
    simp [same, value, Expr.same]

theorem samePairs_eq {memory : Nat → Expr} : (as bs : List Stored) → (∀ e ∈ as, e.LiesIn memory) →
    (∀ e ∈ bs, e.LiesIn memory) →
    (as.length == bs.length && samePairs as bs) = Expr.sameAll (values as) (values bs)
  | [], [], _, _ => by simp [samePairs, values, Expr.sameAll]
  | [], b :: bs, _, _ => by simp [values, Expr.sameAll]
  | a :: as, [], _, _ => by simp [values, Expr.sameAll]
  | a :: as, b :: bs, left, right => by
    have heads := same_eq a b (left a List.mem_cons_self) (right b List.mem_cons_self)
    have rests := samePairs_eq as bs (fun e member => left e (List.mem_cons_of_mem _ member))
      (fun e member => right e (List.mem_cons_of_mem _ member))
    rw [values, values, Expr.sameAll, samePairs, heads, ← rests]
    simp [Bool.and_left_comm]

end

end Stored

/-- Identity is an equivalence on all expressions that can be built in a session, and to stop at a shared instance or
address never changes its answer. -/
theorem same_equivalence {history : List Event} {table : SymbolTable} (session : Session history table)
    {a b c : Expr} (atHand : ∀ s, a.Mentions s ∨ b.Mentions s ∨ c.Mentions s → AtHand history s) :
    a.same a = true ∧ a.same b = b.same a ∧ (a.same b = true → b.same c = true → a.same c = true) ∧
      ∀ (memory : Nat → Expr) (x y : Stored), x.LiesIn memory → y.LiesIn memory → x.value = a → y.value = b →
        x.same y = a.same b := by
  obtain ⟨sound, own, _⟩ := session.invariant
  have ownA : ∀ s, a.Mentions s → table.Holds s := fun s inside => own s (atHand s (.inl inside))
  have ownB : ∀ s, b.Mentions s → table.Holds s := fun s inside => own s (atHand s (.inr (.inl inside)))
  have ownC : ∀ s, c.Mentions s → table.Holds s := fun s inside => own s (atHand s (.inr (.inr inside)))
  refine ⟨a.same_self, ?_, ?_, ?_⟩
  · rw [Bool.eq_iff_iff, Expr.same_iff sound a b ownA ownB, Expr.same_iff sound b a ownB ownA]
    exact eq_comm
  · rw [Expr.same_iff sound a b ownA ownB, Expr.same_iff sound b c ownB ownC, Expr.same_iff sound a c ownA ownC]
    exact Eq.trans
  · rintro memory x y left right rfl rfl
    exact Stored.same_eq x y left right

/-- One half as a double, as a decimal of sixty bits, and as a double again, each below the root. -/
theorem same_equivalence_of_halves :
    let half : MachineReal := ⟨false, 1022 * 2 ^ 52, by decide⟩
    let machine := Expr.compound (.symbol .root) [.number (.real (.machine half))]
    let precise := Expr.compound (.symbol .root) [.number (.real (.precise (.ofDecimal (.ofParts 5 (-1)) 60)))]
    (∀ s, machine.Mentions s ∨ precise.Mentions s ∨ machine.Mentions s → AtHand [] s) ∧
      machine.same precise = true ∧ precise.same machine = true ∧ machine.same machine = true := by
  intro half machine precise
  have atHand : ∀ s, machine.Mentions s ∨ precise.Mentions s ∨ machine.Mentions s → AtHand [] s := by
    intro s inside
    simp only [machine, precise, Expr.mentions_compound, Expr.mentions_symbol, List.mem_singleton, exists_eq_left,
      Expr.mentions_number, or_false, or_self] at inside
    exact .inl inside
  have chain := same_equivalence Session.start atHand
  exact ⟨atHand, by decide +kernel, by decide +kernel, chain.2.2.1 (by decide +kernel) (by decide +kernel)⟩

end SymbolicKernel
