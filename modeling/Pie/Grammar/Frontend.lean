import Pie.Lib.Languages

/-!
# Frontend grammars

The expressions that the regex parser and the JSON schema converter build, and
the words they stand for. A rule's name stands for the words its environment gives
it; the rules of a grammar mean the least environment that gives every name the
words of its body.

Names follow `frontend.rs`. `FrontendExpr::choice` is the only place that builds a
choice, and it builds none of fewer than two alternatives, so a choice here has at
least two.
-/

namespace Pie.Grammar

open List Lib.Languages

inductive FrontendExpr where
  | empty
  | literal (bytes : List UInt8)
  | characterClass (negated : Bool) (ranges : List (Nat × Nat))
  | ruleRef (name : String)
  | group (expr : FrontendExpr)
  | sequence (elements : List FrontendExpr)
  | choice (first second : FrontendExpr) (others : List FrontendExpr)
  | repeat (expr : FrontendExpr) (min : Nat) (max : Option Nat)
deriving Inhabited, Repr

structure FrontendRule where
  name : String
  body : FrontendExpr
deriving Repr

/-- What the names of rules stand for. -/
abbrev Env := String → Language UInt8

/-- The encodings of the characters in, or outside of, the ranges. -/
def classLanguage (negated : Bool) (ranges : List (Nat × Nat)) : Language UInt8 :=
  {word | ∃ c : Char, word = String.utf8EncodeChar c ∧ ((∃ r ∈ ranges, r.1 ≤ c.toNat ∧ c.toNat ≤ r.2) ↔ negated = false)}

/-- The bytes of a string. -/
def utf8 (s : String) : List UInt8 := s.toList.flatMap String.utf8EncodeChar

theorem utf8_append (a b : String) : utf8 (a ++ b) = utf8 a ++ utf8 b := by
  unfold utf8
  rw [String.toList_append, flatMap_append]

namespace FrontendExpr

/-! ## Building -/

def lit (value : String) : FrontendExpr := .literal (utf8 value)

/-- What an element of a sequence puts into it. -/
def elements : FrontendExpr → List FrontendExpr
  | .empty => []
  | .sequence inner => inner
  | other => [other]

/-- `FrontendExpr::sequence` -/
def seq (elements : List FrontendExpr) : FrontendExpr :=
  match elements.flatMap FrontendExpr.elements with
  | [] => .empty
  | [element] => element
  | flattened => .sequence flattened

/-- What an alternative of a choice puts into it. -/
def alternatives : FrontendExpr → List FrontendExpr
  | .choice first second others => first :: second :: others
  | other => [other]

/-- `FrontendExpr::choice` -/
def choose (alternatives : List FrontendExpr) : FrontendExpr :=
  match alternatives.flatMap FrontendExpr.alternatives with
  | [] => .empty
  | [alternative] => alternative
  | first :: second :: others => .choice first second others

def optional (expr : FrontendExpr) : FrontendExpr := .repeat expr 0 (some 1)

/-! ## Meaning -/

mutual

def language (env : Env) : FrontendExpr → Language UInt8
  | .empty => 1
  | .literal bytes => {bytes}
  | .characterClass negated ranges => classLanguage negated ranges
  | .ruleRef name => env name
  | .group expr => expr.language env
  | .sequence elements => languageAll env elements
  | .choice first second others => first.language env + (second.language env + languageAny env others)
  | .repeat expr min max => repeated (expr.language env) min max

/-- One after the other. -/
def languageAll (env : Env) : List FrontendExpr → Language UInt8
  | [] => 1
  | expr :: exprs => expr.language env * languageAll env exprs

/-- One of them. -/
def languageAny (env : Env) : List FrontendExpr → Language UInt8
  | [] => 0
  | expr :: exprs => expr.language env + languageAny env exprs

end

attribute [local simp] language languageAll languageAny

variable {env env' : Env}

variable (exprs : List FrontendExpr) (expr : FrontendExpr)

theorem languageAll_eq : languageAll env exprs = (exprs.map (language env)).prod := by
  induction exprs with
  | nil => rfl
  | cons expr exprs ih => rw [languageAll, ih, map_cons, prod_cons]

theorem languageAny_eq : languageAny env exprs = (exprs.map (language env)).sum := by
  induction exprs with
  | nil => rfl
  | cons expr exprs ih => rw [languageAny, ih, map_cons, sum_cons]

@[simp] theorem language_empty : language env .empty = 1 := by rw [language]

@[simp] theorem language_repeat {expr : FrontendExpr} {min : Nat} {max : Option Nat} :
    language env (.repeat expr min max) = repeated (expr.language env) min max := by rw [language]

theorem language_ruleRef {name : String} : language env (.ruleRef name) = env name := by rw [language]

theorem prod_elements : (expr.elements.map (language env)).prod = expr.language env := by
  cases expr with
  | empty => rw [language, elements, map_nil, prod_nil]
  | sequence inner => rw [language, elements, languageAll_eq]
  | _ => rw [elements, map_cons, map_nil, prod_singleton] <;> exact nofun

theorem sum_alternatives : (expr.alternatives.map (language env)).sum = expr.language env := by
  cases expr with
  | choice first second others =>
    rw [language, languageAny_eq, alternatives, map_cons, map_cons, sum_cons, sum_cons]
  | _ => rw [alternatives, map_cons, map_nil, sum_singleton] <;> exact nofun

/-- A sequence means the product of what its elements mean. -/
theorem language_seq : (seq exprs).language env = (exprs.map (language env)).prod := by
  have hflat : ((exprs.flatMap elements).map (language env)).prod = (exprs.map (language env)).prod := by
    induction exprs with
    | nil => rfl
    | cons expr exprs ih =>
      rw [flatMap_cons, map_append, prod_append, prod_elements, ih, map_cons, prod_cons]
  rw [← hflat]
  unfold seq
  split
  · next h => rw [h, language, map_nil, prod_nil]
  · next h => rw [h, map_cons, map_nil, prod_singleton]
  · rw [language, languageAll_eq]

theorem alternatives_ne_nil : expr.alternatives ≠ [] := by
  cases expr <;> exact cons_ne_nil _ _

/-- A choice means the union of what its alternatives mean. Without any it is the empty word. -/
theorem language_choose {exprs : List FrontendExpr} (h : exprs ≠ []) :
    (choose exprs).language env = (exprs.map (language env)).sum := by
  have hflat : ((exprs.flatMap alternatives).map (language env)).sum = (exprs.map (language env)).sum := by
    clear h
    induction exprs with
    | nil => rfl
    | cons expr exprs ih =>
      rw [flatMap_cons, map_append, sum_append, sum_alternatives, ih, map_cons, sum_cons]
  rw [← hflat]
  unfold choose
  split
  · next hnil =>
      obtain ⟨expr, exprs, rfl⟩ := exists_cons_of_ne_nil h
      exact absurd (append_eq_nil_iff.mp hnil).1 expr.alternatives_ne_nil
  · next h => rw [h, map_cons, map_nil, sum_singleton]
  · next h =>
      rw [h, language, languageAny_eq, map_cons, map_cons, sum_cons, sum_cons]

theorem language_optional {expr : FrontendExpr} : (optional expr).language env = 1 + expr.language env := by
  unfold optional
  rw [language, repeated_optional]

mutual

/-- Where the names stand for more, an expression does. -/
theorem language_mono (h : env ≤ env') : ∀ expr : FrontendExpr, expr.language env ≤ expr.language env'
  | .empty => by rw [language, language]
  | .literal _ => by rw [language, language]
  | .characterClass _ _ => by rw [language, language]
  | .ruleRef name => by rw [language, language]; exact h name
  | .group expr => by rw [language, language]; exact language_mono h expr
  | .sequence elements => by rw [language, language]; exact languageAll_mono h elements
  | .choice first second others => by
    rw [language, language]
    exact add_le_add (language_mono h first) (add_le_add (language_mono h second) (languageAny_mono h others))
  | .repeat expr _ _ => by rw [language, language]; exact repeated_mono (language_mono h expr)

theorem languageAll_mono (h : env ≤ env') : ∀ exprs : List FrontendExpr, languageAll env exprs ≤ languageAll env' exprs
  | [] => by rw [languageAll, languageAll]
  | expr :: exprs => by rw [languageAll, languageAll]; exact mul_le_mul' (language_mono h expr) (languageAll_mono h exprs)

theorem languageAny_mono (h : env ≤ env') : ∀ exprs : List FrontendExpr, languageAny env exprs ≤ languageAny env' exprs
  | [] => by rw [languageAny, languageAny]
  | expr :: exprs => by rw [languageAny, languageAny]; exact add_le_add (language_mono h expr) (languageAny_mono h exprs)

end

end FrontendExpr

/-! ## Rules -/

/-- Every rule's name stands for the words of its body. -/
def Models (env : Env) (rules : List FrontendRule) : Prop := ∀ rule ∈ rules, env rule.name = rule.body.language env

/-- What the names of some rules stand for once more, where other names stand for what `base` gives them. -/
def unroll (rules : List FrontendRule) (base : Env) : Env →o Env where
  toFun env name :=
    match rules.find? (·.name = name) with
    | some rule => rule.body.language env
    | none => base name
  monotone' := fun env env' h name => by
    show (match rules.find? (·.name = name) with | some rule => rule.body.language env | none => base name)
      ≤ match rules.find? (·.name = name) with | some rule => rule.body.language env' | none => base name
    split
    · exact FrontendExpr.language_mono h _
    · exact le_refl _

/-- The least meaning of the rules. -/
def meaning (rules : List FrontendRule) (base : Env) : Env := (unroll rules base).lfp

variable {rules : List FrontendRule}

theorem meaning_other {base : Env} {name : String} (h : ∀ rule ∈ rules, rule.name ≠ name) :
    meaning rules base name = base name := by
  have hnone : rules.find? (·.name = name) = none := find?_eq_none.mpr fun rule hr => by
    rw [decide_eq_true_eq]
    exact h rule hr
  have hfix := congrFun (unroll rules base).map_lfp name
  refine hfix.symm.trans ?_
  show (match rules.find? (·.name = name) with | some rule => _ | none => base name) = _
  rw [hnone]

theorem meaning_models (base : Env) (h : (rules.map (·.name)).Nodup) : Models (meaning rules base) rules := by
  intro rule hr
  have hsome : rules.find? (·.name = rule.name) = some rule := by
    induction rules with
    | nil => cases hr
    | cons first rules ih =>
      rw [map_cons, nodup_cons] at h
      rcases mem_cons.mp hr with rfl | hr
      · exact find?_cons_of_pos (decide_eq_true rfl)
      · rw [find?_cons_of_neg, ih h.2 hr]
        rw [decide_eq_true_eq]
        exact fun he => h.1 (he ▸ mem_map_of_mem hr)
  have hfix := congrFun (unroll rules base).map_lfp rule.name
  refine hfix.symm.trans ?_
  show (match rules.find? (·.name = rule.name) with | some rule => _ | none => _) = _
  rw [hsome]
  rfl

end Pie.Grammar
