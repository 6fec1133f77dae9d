import FlatLisp.Proofs.Trace.Explained

/-! Where errors come from. The first form that an error leaves becomes its context, and no form
around that one adds to it. So the context is the innermost form that failed, if any form did. -/
namespace FlatLisp
open Machine Eval Nesting Evaluation Visit

variable {α : Type} {e : Error} {tokens : List Token} {steps : Nat} {o : Options}
  {s t : State (List Token)} {visits : List (Visit (List Token))}

/-- What is said of a text: all of it, or the first 100 characters and a mark if it is longer. -/
def Abridges (said text : String) : Prop :=
  text.length ≤ 100 ∧ said = text ∨
    100 < text.length ∧ said = String.ofList (text.toList.take 100) ++ "[...]"

theorem abridges_excerpt (text : String) : Abridges (Error.excerpt text) text := by
  simp only [Abridges, Error.excerpt, Error.contextLimit, String.length_toList]
  split
  · exact .inl ⟨‹_›, rfl⟩
  · exact .inr ⟨by omega, String.ofList_append⟩

/-- A fault that the tokens have outside of the forms among them. -/
inductive OutsideForms (tokens : List Token) : Fault → Prop
  | empty : tokens = [] → OutsideForms tokens (.malformed .emptyInput)
  | atomFirst {t : Token} {ts : List Token} : tokens = t :: ts → ¬ t.isOpen →
      OutsideForms tokens (.malformed (.startsWithAtom t.text))
  | behind {form rest : List Token} : tokens = form ++ rest → IsForm form → rest ≠ [] →
      OutsideForms tokens (.malformed (.tokensAfter rest))
  | bare {before after : List Token} {t : Token} : tokens = before ++ t :: after →
      Balanced before → ¬ t.isOpen → OutsideForms tokens (.malformed (.bareTopLevel t.text))
  | unmatched {before after : List Token} {t : Token} : tokens = before ++ t :: after →
      Balanced before → t.isOpen → (∀ x, x <+: t :: after → ¬ IsForm x) →
      OutsideForms tokens (.unbalanced (.unmatchedOpen before.length))

theorem context_ne_nil_of_evalForm {form : List Token}
    (h : ofNested form steps o s = some (.error e, t)) : e.context ≠ [] := by
  cases steps with
  | zero => cases h
  | succ steps =>
    obtain ⟨⟨r, u⟩, -, hr⟩ := Option.map_eq_some_iff.mp ((located_eq_map form _ o s).symm.trans h)
    cases r with
    | ok v => cases hr
    | error g =>
      obtain ⟨rfl, -⟩ : g.locate form = e ∧ u = t := by simpa [Except.mapError] using hr
      exact g.context_locate_ne_nil form

theorem ofExcept_eq_ok {β : Type} {x : Except Fault α} {a : α} {s t : State β}
    (h : (Machine.ofExcept x : Evaluation β α) o s = some (.ok a, t)) : x = .ok a := by
  cases x with
  | ok b =>
    cases h
    rfl
  | error f => cases h

theorem ofExcept_eq_error {β : Type} {x : Except Fault α} {s t : State β}
    (h : (Machine.ofExcept x : Evaluation β α) o s = some (.error e, t)) : x = .error e.fault := by
  cases x with
  | ok a => cases h
  | error f =>
    cases h
    rfl

theorem matchParen_eq_error {u : Token} {us : List Token} {f : Fault} (ho : u.isOpen)
    (h : matchParen (u :: us) 0 = .error f) :
    f = .unbalanced (.unmatchedOpen 0) ∧ ∀ x, x <+: u :: us → ¬ IsForm x := by
  simp only [matchParen, List.drop_zero, ho, if_true] at h
  split at h
  · cases h
  · exact ⟨(Except.error.inj h).symm, fun x hx => not_isForm_of_closeFrom ‹_› hx⟩

/-- An error without a context is none of a form. -/
theorem outsideForms_of_ofForm (h : ofForm tokens steps o s = some (.error e, t))
    (hbare : e.context = []) : OutsideForms tokens e.fault := by
  match tokens with
  | [] =>
    cases h
    exact .empty rfl
  | u :: us =>
    simp only [ofForm, evaluate] at h
    split at h
    · rename_i ho
      obtain ⟨g, hg, he⟩ | ⟨close, v, hclose, h⟩ := bind_eq_some h
      · obtain rfl := Except.error.inj he
        obtain ⟨hf, hnone⟩ := matchParen_eq_error ho (ofExcept_eq_error hg)
        rw [hf]
        exact @OutsideForms.unmatched (u :: us) [] us u rfl rfl ho hnone
      · split at h
        · exact absurd hbare (context_ne_nil_of_evalForm h)
        · rename_i hlength
          cases h
          obtain ⟨form, rest, he, hform, hl⟩ := exists_form_of_matchParen (ofExcept_eq_ok hclose)
          have hdrop : (u :: us).drop (close + 1) = rest := by
            rw [he, ← hl, List.drop_left]
          simp only [Error.bare, hdrop]
          refine .behind he hform ?_
          rintro rfl
          rw [List.append_nil] at he
          exact hlength (by rw [he, hl])
    · cases h
      exact .atomFirst rfl ‹_›

/-- Among top-level operands only an atom has an error without a context. -/
theorem exists_atom_of_evalForms {forms : List (List Token)} {last : Value}
    (h : (evalForms steps last forms : Evaluation (List Token) Value) o s = some (.error e, t))
    (hbare : e.context = []) :
    ∃ earlier u rest, forms = earlier ++ [u] :: rest ∧
      e.fault = .malformed (.bareTopLevel u.text) := by
  induction forms generalizing last s with
  | nil => cases h
  | cons form forms ih =>
    match form, h with
    | [u], h =>
      cases h
      exact ⟨[], u, forms, rfl, rfl⟩
    | [], h | _ :: _ :: _, h =>
      obtain ⟨g, hg, he⟩ | ⟨v, u, -, h⟩ := bind_eq_some h
      · obtain rfl := Except.error.inj he
        exact absurd hbare (context_ne_nil_of_evalForm hg)
      · obtain ⟨earlier, w, rest, rfl, hf⟩ := ih h
        exact ⟨_ :: earlier, w, rest, rfl, hf⟩

theorem outsideForms_of_ofProgram (h : ofProgram tokens steps o s = some (.error e, t))
    (hbare : e.context = []) : OutsideForms tokens e.fault := by
  have hshape : ∀ x ∈ (operands tokens).complete, IsOperand x := fun _ =>
    isOperand_of_mem_operands
  obtain ⟨g, hg, he⟩ | ⟨v, u, -, h⟩ := bind_eq_some h
  · obtain rfl := Except.error.inj he
    obtain ⟨earlier, w, rest, hforms, hf⟩ := exists_atom_of_evalForms hg hbare
    obtain ⟨unread, hunread⟩ := operands_isPrefix tokens
    rw [hforms] at hshape hunread
    simp only [List.flatten_append, List.flatten_cons, List.append_assoc] at hunread
    have hbefore : Balanced earlier.flatten := balanced_flatten fun x hx => hshape x (by simp [hx])
    have hatom : ¬ w.isOpen := (hshape [w] (by simp)).not_isOpen
    rw [hf]
    exact .bare hunread.symm hbefore hatom
  · cases hcause : (operands tokens).cutShort with
    | none =>
      rw [hcause] at h
      cases h
    | some cause =>
      obtain ⟨unread, hunread, hstops⟩ := stops_of_cutShort hcause
      have hbefore := balanced_flatten hshape
      rw [hcause] at h
      cases hstops with
      | strayClose hc =>
        cases h
        exact .bare hunread hbefore (by simp [isOpen_iff, isClose_iff.mp hc])
      | unmatchedOpen ho hnone =>
        cases h
        exact .unmatched hunread hbefore ho hnone

/-- Where an error in an evaluation of the tokens comes from, as the trace tells it. -/
inductive Origin (tokens : List Token) (visits : List (Visit (List Token))) : Error → Prop
  | outside {f : Fault} : OutsideForms tokens f → Quiet visits → Origin tokens visits (.bare f)
  | form {x : List Token} {inner : List (Visit (List Token))} {raised e : Error} {said : String} :
      (Visit.form x inner (some raised)).Within visits → raised.context = [] → Quiet inner →
        IsForm x → StandsIn tokens visits x → Abridges said (Token.render x) →
        e.fault = raised.fault → e.kind = raised.kind → e.context = [said] →
        Origin tokens visits e

theorem Explained.origin {P : α → Prop} {last : Option (Except Error α × State (List Token))}
    (h : Explained tokens P visits last) (hlast : last = some (.error e, t))
    (houtside : e.context = [] → OutsideForms tokens e.fault) : Origin tokens visits e := by
  obtain ⟨hbare, hquiet⟩ | ⟨hform, hquiet⟩ := h.error e t hlast
  · obtain ⟨f, context⟩ := e
    obtain rfl : context = [] := hbare
    exact .outside (houtside rfl) hquiet
  · obtain ⟨hx, hstands⟩ := h.forms _ _ _ hform
    exact .form hform rfl hquiet hx hstands (abridges_excerpt _) rfl rfl rfl

/-- Whatever tokens are evaluated, as one form or as a program, and from whatever state: an error
that they end in either has no context, and it is one of the tokens outside of their forms. Or its
context is one form, the innermost that failed: a form among the tokens, or in the body of a
function that was called, which raised the bare error while nothing within it had raised any. -/
theorem origin_of_error :
    (∀ tokens steps o s e t, ofForm tokens steps o s = some (.error e, t) →
      ∃ visits, Traced.ofForm tokens steps o s = (visits, some (.error e, t)) ∧
        Origin tokens visits e) ∧
    ∀ tokens steps o s e t, ofProgram tokens steps o s = some (.error e, t) →
      ∃ visits, Traced.ofProgram tokens steps o s = (visits, some (.error e, t)) ∧
        Origin tokens visits e := by
  refine ⟨?_, ?_⟩
  · intro tokens steps o s e t h
    have hlast : (Traced.ofForm tokens steps o s).2 = some (.error e, t) :=
      (congrFun (congrFun (Traced.untraced_ofForm tokens steps) o) s).trans h
    have hexplained : Explains tokens (fun _ => True) (Traced.ofForm tokens steps) :=
      explaining.holds_evaluate steps fun _ _ => trivial
    exact ⟨_, Prod.ext rfl hlast, (hexplained o s).origin hlast (outsideForms_of_ofForm h)⟩
  · intro tokens steps o s e t h
    have hlast : (Traced.ofProgram tokens steps o s).2 = some (.error e, t) :=
      (congrFun (congrFun (Traced.untraced_ofProgram tokens steps) o) s).trans h
    have hexplained : Explains tokens (fun _ => True) (Traced.ofProgram tokens steps) :=
      explaining.holds_evaluateProgram steps fun _ _ => trivial
    exact ⟨_, Prod.ext rfl hlast, (hexplained o s).origin hlast (outsideForms_of_ofProgram h)⟩

/-- A program with an error in a function, which is called within another form. -/
def mistaken : List Token :=
  Lexer.cut "(defun f (x) (if x (/ 1 0) 2)) (print (f 1))".toList

/-- Its two forms do not make one. -/
def mistakenAsForm : Fault := .malformed (.tokensAfter (Lexer.cut "(print (f 1))".toList))

theorem origin_mistaken :
    (∃ t visits, Traced.ofProgram mistaken 20 {} { env := {} } =
        (visits, some (.error ⟨.divisionByZero, ["(/ 1 0)"]⟩, t)) ∧
      Origin mistaken visits ⟨.divisionByZero, ["(/ 1 0)"]⟩) ∧
    ∃ t visits, Traced.ofForm mistaken 20 {} { env := {} } =
        (visits, some (.error (.bare mistakenAsForm), t)) ∧
      Origin mistaken visits (.bare mistakenAsForm) := by
  have hprogram : raisedBy? (ofProgram mistaken 20 {} { env := {} }) =
      some ⟨.divisionByZero, ["(/ 1 0)"]⟩ := by
    decide +kernel
  have hform : raisedBy? (ofForm mistaken 20 {} { env := {} }) = some (.bare mistakenAsForm) := by
    decide +kernel
  obtain ⟨t, ht⟩ := raisedBy?_eq_some hprogram
  obtain ⟨u, hu⟩ := raisedBy?_eq_some hform
  obtain ⟨visits, hvisits⟩ := origin_of_error.2 mistaken 20 _ _ _ t ht
  obtain ⟨during, hduring⟩ := origin_of_error.1 mistaken 20 _ _ _ u hu
  exact ⟨⟨t, visits, hvisits⟩, u, during, hduring⟩

end FlatLisp
