import FlatLisp.Proofs.Call

/-! Definitions of functions. What a definition says is stored as it is written, so the definition
can be written again from the function. -/
namespace FlatLisp
open Machine Eval Nesting Evaluation

/-- The definition of the function, as it is written. -/
def UserFunction.form (f : UserFunction (List Token)) : List Token :=
  .openParen :: ⟨.symbol, "defun"⟩ :: ⟨.symbol, f.name⟩ :: .openParen ::
    (f.parameters.map (Token.mk .symbol) ++ .closeParen :: (f.body ++ [.closeParen]))

/-- A form that is headed by `defun` and has these operands. -/
def IsDefinition (form : List Token) (xs : List (List Token)) : Prop :=
  (∃ first last, form = first :: ⟨.symbol, "defun"⟩ :: (xs.flatten ++ [last]) ∧
    first.isOpen ∧ last.isClose) ∧ ∀ x ∈ xs, IsOperand x

/-- The operands are a name that is not reserved, names in parens that differ from each other, and
a body. -/
def Declares (xs : List (List Token)) (f : UserFunction (List Token)) : Prop :=
  ∃ first last body,
    xs = [⟨.symbol, f.name⟩] :: (first :: (f.parameters.map (Token.mk .symbol) ++ [last])) :: body ∧
    first.isOpen ∧ last.isClose ∧ Builtin.ofSymbol? f.name = none ∧ f.parameters.Nodup ∧
    body ≠ [] ∧ f.body = body.flatten

/-- The parens among the tokens are spelled as they are in a text. -/
def PlainParens (tokens : List Token) : Prop :=
  ∀ t ∈ tokens, (t.isOpen → t = .openParen) ∧ (t.isClose → t = .closeParen)

variable {form : List Token} {xs : List (List Token)} {f : UserFunction (List Token)}
  {o : Options} {s t : State (List Token)}

theorem Token.mk_symbol_injective : Function.Injective (Token.mk .symbol) :=
  fun _ _ h => (Token.mk.inj h).2

theorem defines_iff_declares : Defines xs f ↔ Declares xs f := by
  constructor
  · rintro ⟨⟨_, _⟩, parameterList, body, rfl, rfl, rfl, hb, hp, hne, hbody⟩
    obtain ⟨⟨first, last, rfl, ho, hc⟩, hnodup⟩ := parametersOf_eq_ok_iff.mp hp
    exact ⟨first, last, body, rfl, ho, hc, hb, hnodup, hne, hbody⟩
  · rintro ⟨first, last, body, rfl, ho, hc, hb, hnodup, hne, hbody⟩
    exact ⟨⟨.symbol, f.name⟩, _, body, rfl, rfl, rfl, hb,
      parametersOf_eq_ok_iff.mpr ⟨⟨first, last, rfl, ho, hc⟩, hnodup⟩, hne, hbody⟩

theorem Declares.unique {g : UserFunction (List Token)} (hf : Declares xs f)
    (hg : Declares xs g) : f = g := by
  obtain ⟨name, parameters, stored⟩ := f
  obtain ⟨name', parameters', stored'⟩ := g
  obtain ⟨_, _, body, rfl, -, -, -, -, -, rfl⟩ := hf
  obtain ⟨_, _, body', he, -, -, -, -, -, rfl⟩ := hg
  simp only [List.cons.injEq, Token.mk.injEq, true_and, and_true] at he
  obtain ⟨rfl, ⟨-, hlist⟩, rfl⟩ := he
  obtain ⟨hnames, -⟩ := List.append_inj' hlist rfl
  rw [List.map_injective_iff.mpr Token.mk_symbol_injective hnames]

theorem evalDefun_of_defines (h : Defines xs f) :
    (evalDefun xs : Evaluation (List Token) Value) = do
      define f
      return .text f.name := by
  obtain ⟨target, parameterList, body, rfl, hk, hname, hb, hp, hne, hbody⟩ := h
  obtain ⟨name, parameters, stored⟩ := f
  obtain rfl : stored = body.flatten := hbody
  obtain rfl : target.text = name := hname
  simp only [evalDefun, nameOf, hk, if_true, pure_bind, hb, Option.isSome_none, Bool.false_eq_true,
    if_false, hp, List.isEmpty_eq_false_iff.mpr hne]

/-- Whatever keeps the operands from being those of a definition is found before anything is
stored. -/
theorem evalDefun_eq_fail (h : ∀ f, ¬ Defines xs f) :
    ∃ e, (evalDefun xs : Evaluation (List Token) Value) = fail e := by
  match xs with
  | [] => exact ⟨_, rfl⟩
  | [_] => exact ⟨_, rfl⟩
  | [] :: _ :: _ => exact ⟨_, rfl⟩
  | (_ :: _ :: _) :: _ :: _ => exact ⟨_, rfl⟩
  | [target] :: parameterList :: body =>
    by_cases hk : target.kind = .symbol
    · simp only [evalDefun, nameOf, hk, if_true, pure_bind]
      cases hb : Builtin.ofSymbol? target.text with
      | some b => exact ⟨_, rfl⟩
      | none =>
        simp only [Option.isSome_none, Bool.false_eq_true, if_false]
        cases hp : parametersOf target.text parameterList with
        | error cause => exact ⟨_, rfl⟩
        | ok parameters =>
          by_cases hne : body = []
          · exact ⟨.malformed (.noBody target.text), by simp [hne, malformed]⟩
          · exact absurd ⟨target, parameterList, body, rfl, hk, rfl, hb, hp, hne, rfl⟩
              (h ⟨target.text, parameters, body.flatten⟩)
    · simp only [evalDefun, nameOf, hk, if_false]
      exact ⟨_, rfl⟩

/-- Tokens that are one form are evaluated as it is. -/
theorem Evaluation.ofForm_of_isForm (h : IsForm form) : ofForm form = ofNested form := by
  obtain ⟨close, hclose, hlength⟩ := h.matchParen_eq
  obtain ⟨first, inner, last, rfl, ho, -⟩ := h
  funext steps
  simp only [ofForm, evaluate, ho, if_true, hclose, Machine.ofExcept, pure_bind, hlength]

theorem Declares.arity_accepts (h : Declares xs f) :
    SpecialForm.defun.arity.accepts xs.length := by
  obtain ⟨first, last, body, rfl, -, -, -, -, hne, -⟩ := h
  have hpos := List.length_pos_iff.mpr hne
  simp only [SpecialForm.arity, Arity.accepts, List.length_cons, decide_eq_true_eq]
  omega

namespace IsDefinition

theorem isForm (h : IsDefinition form xs) : IsForm form := by
  obtain ⟨⟨first, last, rfl, ho, hc⟩, hxs⟩ := h
  have hhead : Balanced [⟨.symbol, "defun"⟩] := rfl
  exact ⟨first, _, last, rfl, ho, hc, hhead.append (balanced_flatten hxs)⟩

theorem applies (h : IsDefinition form xs) : Applies form (.special .defun) xs := by
  obtain ⟨⟨first, last, rfl, hparens⟩, hxs⟩ := h
  exact ⟨⟨.symbol, "defun"⟩, xs.flatten, enclosed?_eq_some_iff.mpr ⟨first, last, rfl, hparens⟩, rfl,
    Builtin.ofSymbol?_symbol (.special .defun), splitOperands_flatten hxs⟩

/-- The definition stores the function and changes nothing else. -/
theorem endsIn_of_declares (h : IsDefinition form xs) (hf : Declares xs f) (o : Options)
    (s : State (List Token)) :
    EndsIn (ofNested form) o s (.ok (.text f.name), { s with env := s.env.define f }) := by
  refine endsIn_ofNested_iff.mpr ⟨1, ?_⟩
  rw [evalForm_of_applies h.applies, evalBuiltin_special hf.arity_accepts, evalSpecial,
    evalDefun_of_defines (defines_iff_declares.mpr hf)]
  rfl

/-- Where the operands are not those of a definition, nothing changes. -/
theorem endsIn_of_not_declares (h : IsDefinition form xs) (hf : ∀ f, ¬ Declares xs f)
    (o : Options) (s : State (List Token)) :
    ∃ e, EndsIn (ofNested form) o s (.error e, s) := by
  obtain ⟨fault, hfail⟩ := evalDefun_eq_fail fun f hd => hf f (defines_iff_declares.mp hd)
  have hbuiltin : ∃ g, (evalBuiltin (evalForm 0) 0 (.special .defun) xs :
      Evaluation (List Token) Value) = fail g := by
    simp only [evalBuiltin]
    cases hv : (Builtin.special .defun).arity.validate _ xs.length with
    | error g => exact ⟨g, rfl⟩
    | ok _ => exact ⟨fault, hfail⟩
  obtain ⟨g, hg⟩ := hbuiltin
  refine ⟨(Error.bare g).locate form, endsIn_ofNested_iff.mpr ⟨1, ?_⟩⟩
  rw [evalForm_of_applies h.applies, hg]
  rfl

end IsDefinition

theorem isOperand_parameters {first last : Token} (ho : first.isOpen) (hc : last.isClose)
    (names : List String) :
    IsOperand (first :: (names.map (Token.mk .symbol) ++ [last])) := by
  refine .inr ⟨first, _, last, rfl, ho, hc, ?_⟩
  induction names with
  | nil => rfl
  | cons name names ih => exact ih

/-- The function is stored again by the definition that is written from it. -/
theorem Declares.exists_isDefinition_form (hf : Declares xs f) (hxs : ∀ x ∈ xs, IsOperand x) :
    ∃ ys, IsDefinition f.form ys ∧ Declares ys f := by
  obtain ⟨first, last, body, rfl, ho, hc, hb, hnodup, hne, hbody⟩ := hf
  simp only [List.forall_mem_cons] at hxs
  obtain ⟨hname, -, hoperands⟩ := hxs
  refine ⟨[⟨.symbol, f.name⟩] ::
    (.openParen :: (f.parameters.map (Token.mk .symbol) ++ [.closeParen])) :: body, ⟨?_, ?_⟩, ?_⟩
  · exact ⟨.openParen, .closeParen, by simp [UserFunction.form, hbody], rfl, rfl⟩
  · simp only [List.forall_mem_cons]
    exact ⟨hname, isOperand_parameters rfl rfl _, hoperands⟩
  · exact ⟨.openParen, .closeParen, body, rfl, rfl, rfl, hb, hnodup, hne, hbody⟩

/-- All that a definition says can be told from the function, apart from how parens are spelled. -/
theorem IsDefinition.form_eq (h : IsDefinition form xs) (hf : Declares xs f)
    (hp : PlainParens form) : f.form = form := by
  obtain ⟨⟨first, last, rfl, ho, hc⟩, -⟩ := h
  obtain ⟨opening, closing, body, rfl, ho', hc', -, -, -, hbody⟩ := hf
  obtain rfl := (hp first (by simp)).1 ho
  obtain rfl := (hp last (by simp)).2 hc
  obtain rfl := (hp opening (by simp)).1 ho'
  obtain rfl := (hp closing (by simp)).2 hc'
  simp [UserFunction.form, hbody]

/-- A definition stores its form without loss. The function has the name and the parameters in their
order, the operands in its body are found again as they were, and the definition that is written
from it is the one that was evaluated, and stores the same function in whatever state. A definition
goes through just where its name is not reserved, its parameters are names that differ from each
other, and it has a body. Otherwise the state is left as it is. -/
theorem definitions_keep_form (h : IsDefinition form xs) (o : Options) (s : State (List Token)) :
    (∀ v t, EndsIn (ofForm form) o s (.ok v, t) →
      ∃ f, Declares xs f ∧ v = .text f.name ∧ t = { s with env := s.env.define f } ∧
        t.env.function? f.name = some f ∧ splitOperands f.body = .ok (xs.drop 2) ∧
        (PlainParens form → f.form = form) ∧
        ∀ o' s', EndsIn (ofForm f.form) o' s'
          (.ok (.text f.name), { s' with env := s'.env.define f })) ∧
    ((∃ v t, EndsIn (ofForm form) o s (.ok v, t)) ↔ ∃ f, Declares xs f) ∧
    ((∀ f, ¬ Declares xs f) → ∃ e, EndsIn (ofForm form) o s (.error e, s)) := by
  rw [ofForm_of_isForm h.isForm]
  have hdeclares : ∀ v t, EndsIn (ofNested form) o s (.ok v, t) → ∃ f, Declares xs f := by
    intro v t hend
    by_contra hnone
    obtain ⟨e, herror⟩ := h.endsIn_of_not_declares (not_exists.mp hnone) o s
    cases hend.unique herror
  refine ⟨?_, ⟨fun ⟨v, t, hend⟩ => hdeclares v t hend, ?_⟩, fun hnone =>
    h.endsIn_of_not_declares hnone o s⟩
  · intro v t hend
    obtain ⟨f, hf⟩ := hdeclares v t hend
    cases hend.unique (h.endsIn_of_declares hf o s)
    refine ⟨f, hf, rfl, rfl, by simp [Environment.function?_define], ?_, h.form_eq hf, ?_⟩
    · obtain ⟨first, last, body, rfl, -, -, -, -, -, hbody⟩ := hf
      rw [hbody]
      exact splitOperands_flatten fun x hx => h.2 x (by simp [hx])
    · obtain ⟨ys, hform, hys⟩ := hf.exists_isDefinition_form h.2
      rw [ofForm_of_isForm hform.isForm]
      exact hform.endsIn_of_declares hys
  · rintro ⟨f, hf⟩
    exact ⟨_, _, h.endsIn_of_declares hf o s⟩

/-! A definition whose body has two operands, and one that names a parameter twice. -/
namespace Area

def area : UserFunction (List Token) :=
  ⟨"area", ["w", "h"], Lexer.cut "(print w) (* w h)".toList⟩

def written : List Token := Lexer.cut "(defun area (w h) (print w) (* w h))".toList

def operands : List (List Token) :=
  ["area", "(w h)", "(print w)", "(* w h)"].map (Lexer.cut ·.toList)

def twice : List Token := Lexer.cut "(defun area (w w) w)".toList

def twiceOperands : List (List Token) := ["area", "(w w)", "w"].map (Lexer.cut ·.toList)

theorem isDefinition_written : IsDefinition written operands := by
  have hsplit : splitOperands operands.flatten = .ok operands := by decide +kernel
  exact ⟨⟨.openParen, .closeParen, by decide +kernel, rfl, rfl⟩, fun _ =>
    isOperand_of_splitOperands hsplit⟩

theorem isDefinition_twice : IsDefinition twice twiceOperands := by
  have hsplit : splitOperands twiceOperands.flatten = .ok twiceOperands := by decide +kernel
  exact ⟨⟨.openParen, .closeParen, by decide +kernel, rfl, rfl⟩, fun _ =>
    isOperand_of_splitOperands hsplit⟩

theorem definitions_keep_form_area :
    (∃ t, EndsIn (ofForm written) {} { env := {} } (.ok (.text "area"), t) ∧
      t.env.function? "area" = some area ∧ splitOperands area.body = .ok (operands.drop 2) ∧
      area.form = written) ∧
    ∃ e, EndsIn (ofForm twice) {} { env := {} } (.error e, { env := {} }) := by
  constructor
  · have hdeclares : Declares operands area :=
      ⟨.openParen, .closeParen, operands.drop 2, by decide +kernel, rfl, rfl, by decide +kernel,
        by decide, by decide, by decide +kernel⟩
    have hplain : PlainParens written := by
      unfold PlainParens
      decide +kernel
    obtain ⟨hkeeps, hiff, -⟩ := definitions_keep_form isDefinition_written {} { env := {} }
    obtain ⟨v, t, hend⟩ := hiff.mpr ⟨area, hdeclares⟩
    obtain ⟨f, hf, rfl, -, hfunction, hbody, hform, -⟩ := hkeeps v t hend
    obtain rfl := hf.unique hdeclares
    exact ⟨t, hend, hfunction, hbody, hform hplain⟩
  · refine (definitions_keep_form isDefinition_twice {} { env := {} }).2.2 fun f hf => ?_
    obtain ⟨first, last, body, he, -, -, -, hnodup, -⟩ := hf
    have hlist : Lexer.cut "(w w)".toList = .openParen ::
        (["w", "w"].map (Token.mk .symbol) ++ [.closeParen]) := by
      decide +kernel
    simp only [twiceOperands, List.map_cons, List.cons.injEq, hlist] at he
    obtain ⟨hnames, -⟩ := List.append_inj' he.2.1.2 rfl
    have hparameters : ["w", "w"] = f.parameters :=
      List.map_injective_iff.mpr Token.mk_symbol_injective hnames
    exact absurd (hparameters ▸ hnodup) (by decide)

end Area
end FlatLisp
