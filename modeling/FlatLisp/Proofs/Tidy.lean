import FlatLisp.Proofs.Environment
import FlatLisp.Proofs.Sequence
import FlatLisp.Proofs.Value

/-! Tidy environments: what is in an environment that was only changed by evaluations of tokens from
some text. Values have no blanks and no parens in them, variables hold no text that reads as an
integer, and functions are such as can be called. -/
namespace FlatLisp
open Lexer Nesting

variable {name : String} {t : Token} {tokens : List Token} {v : Value}
  {xs : List (List Token)} {f : UserFunction (List Token)}

/-- A word that is a symbol and not a numeral. -/
structure IsSymbol (name : String) : Prop where
  ne_empty : name ≠ ""
  chars : ∀ c ∈ name.toList, IsWordChar c
  not_numeral : ¬ IsNumeral name.toList

theorem Token.WellSpelled.isSymbol (h : t.WellSpelled) (hk : t.kind = .symbol) :
    IsSymbol t.text := by
  cases h with
  | opening => cases hk
  | closing => cases hk
  | @atom text hne hchars =>
    refine ⟨hne, hchars, fun hn => ?_⟩
    have hnumber : Token.isNumber text.toList := isNumber_iff.mpr hn
    simp [Token.atom, hnumber] at hk

theorem Token.WellSpelled.unbroken (h : t.WellSpelled) : Unbroken t.text := by
  cases h with
  | opening => decide
  | closing => decide
  | atom _ hchars => exact fun c hc => (hchars c hc).1

/-- Names and tokens as they may come from a text, and values and quotations without blanks. -/
def Lexicon.spelled : Lexicon where
  Name := IsSymbol
  Good := Value.Solid
  Word := Token.WellSpelled
  Quotable := Unbroken
  integer := Value.solid_integer
  text h := Value.solid_text h.chars
  empty := Value.solid_empty
  normalized h := h.normalized
  result _ h := Value.solid_of_isResult (Operator.isResult_of_apply h)
  name h hk := h.isSymbol hk
  quotable h := h.unbroken
  display h := h.display.unbroken
  builtin b := by
    cases b with
    | operator op => cases op <;> decide
    | special form => cases form <;> decide

/-- A function as a definition stores it. -/
structure UserFunction.WellFormed (f : UserFunction (List Token)) : Prop where
  name : IsSymbol f.name
  not_builtin : Builtin.ofSymbol? f.name = none
  parameter : ∀ p ∈ f.parameters, IsSymbol p
  nodup : f.parameters.Nodup
  body_ne_nil : f.body ≠ []
  body_splits : ∃ xs, splitOperands f.body = .ok xs
  body_spelled : ∀ t ∈ f.body, t.WellSpelled

theorem wellFormed_of_defines {source : List Token} (h : Lexicon.spelled.Operands source xs)
    (hd : Defines xs f) : f.WellFormed := by
  obtain ⟨target, parameterList, body, rfl, hk, ht, hb, hp, hne, hf⟩ := hd
  have hbody : ∀ x ∈ body, IsOperand x := fun x hx => (h x (by simp [hx])).1
  have hname : IsSymbol f.name := ht ▸ (h.head.2.word target (by simp)).isSymbol hk
  obtain ⟨hnodup, htokens⟩ := nodup_of_parametersOf hp
  refine ⟨hname, hb, ?_, hnodup, ?_, ?_, ?_⟩
  · intro p hmem
    obtain ⟨u, hu, huk, rfl⟩ := htokens p hmem
    exact (h.tail.head.2.word u hu).isSymbol huk
  · obtain ⟨x, body, rfl⟩ := List.exists_cons_of_ne_nil hne
    intro hnil
    rw [hf, List.flatten_cons, List.append_eq_nil_iff] at hnil
    exact (hbody x (by simp)).ne_nil hnil.1
  · rw [hf]
    exact exists_splitOperands (balanced_flatten hbody)
  · intro u hu
    rw [hf] at hu
    obtain ⟨x, hx, hux⟩ := List.mem_flatten.mp hu
    exact (h x (by simp [hx])).2.word u hux

/-- What the scope binds is solid and typed. -/
def Scope.Tidy (a : Scope) : Prop := ∀ name v, a.get? name = some v → v.Solid ∧ v.Typed

namespace Scope.Tidy
variable {a : Scope}

theorem of_bindings_empty {isolated : Bool} : Scope.Tidy { isolated } := by
  intro name v hv
  simp [Scope.get?] at hv

theorem define (h : a.Tidy) (name : String) (hs : v.Solid) (ht : v.Typed) :
    (a.define name v).Tidy := by
  intro other w hw
  rw [Scope.get?_define] at hw
  split at hw
  · obtain rfl := Option.some.inj hw
    exact ⟨hs, ht⟩
  · exact h other w hw

end Scope.Tidy

namespace Environment

structure Tidy (env : Environment (List Token)) : Prop where
  globals : env.globals.Tidy
  scope : ∀ a ∈ env.scopes, a.Tidy
  function : ∀ name f, env.function? name = some f → f.name = name ∧ f.WellFormed

variable {env : Environment (List Token)}

theorem lookupIn_eq_some {scopes : List Scope} (h : lookupIn name scopes = some v) :
    ∃ a ∈ scopes, a.get? name = some v := by
  induction scopes with
  | nil => cases h
  | cons a rest ih =>
    simp only [lookupIn] at h
    split at h
    · rename_i w hw
      obtain rfl := Option.some.inj h
      exact ⟨a, by simp, hw⟩
    · split at h
      · cases h
      · obtain ⟨b, hb, hv⟩ := ih h
        exact ⟨b, by simp [hb], hv⟩

namespace Tidy

theorem lookup (h : env.Tidy) (hv : env.lookup name = some v) : v.Solid ∧ v.Typed := by
  obtain hv | ⟨-, hv⟩ := Option.or_eq_some_iff.mp hv
  · obtain ⟨a, ha, hv⟩ := lookupIn_eq_some hv
    exact h.scope a ha name v hv
  · exact h.globals name v hv

theorem assign (h : env.Tidy) (name : String) (hs : v.Solid) (ht : v.Typed) :
    (env.assign name v).Tidy := by
  simp only [Environment.assign]
  split
  · exact { h with globals := h.globals.define name hs ht }
  · rename_i a rest he
    have hscopes := he ▸ h.scope
    obtain ⟨ha, hrest⟩ := List.forall_mem_cons.mp hscopes
    exact { h with scope := List.forall_mem_cons.mpr ⟨ha.define name hs ht, hrest⟩ }

theorem define (h : env.Tidy) (hf : f.WellFormed) : (env.define f).Tidy := by
  refine { h with function := ?_ }
  intro name g hg
  rw [function?_define] at hg
  split at hg
  · obtain rfl := Option.some.inj hg
    exact ⟨‹_›, hf⟩
  · exact h.function name g hg

/-- The scope of a call is a copy of one that is there, or it is empty. -/
theorem pushCall (h : env.Tidy) (rule : CallScope) : (env.pushCall rule).Tidy := by
  cases rule with
  | parametersOnly =>
    exact { h with scope := List.forall_mem_cons.mpr ⟨.of_bindings_empty, h.scope⟩ }
  | copyCaller =>
    refine { h with scope := List.forall_mem_cons.mpr ⟨?_, h.scope⟩ }
    cases hs : env.scopes with
    | nil => exact .of_bindings_empty
    | cons a rest => exact h.scope a (by simp [hs])

theorem enter {entered : Environment (List Token)} (h : env.Tidy)
    (he : env.enter = .ok entered) : entered.Tidy := by
  obtain ⟨-, rfl⟩ := enter_eq_ok_iff.mp he
  exact { h with }

theorem leave (h : env.Tidy) : env.pop.exit.Tidy :=
  { h with scope := fun a ha => h.scope a (List.mem_of_mem_tail ha) }

theorem getInteger?_eq_some_iff (h : env.Tidy) {n : Int64} :
    env.getInteger? name = some n ↔ env.lookup name = some (.integer n) := by
  simp only [getInteger?]
  cases hv : env.lookup name with
  | none => simp
  | some v => simp [(h.lookup hv).2.toInteger?_eq_some_iff]

end Tidy
end Environment

/-- The environment is tidy, and the lines that were printed have no blanks. -/
structure State.Tidy (s : State (List Token)) : Prop where
  env : s.env.Tidy
  printed : ∀ line ∈ s.output, Unbroken line

end FlatLisp
