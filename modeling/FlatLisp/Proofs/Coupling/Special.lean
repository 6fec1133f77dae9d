import FlatLisp.Proofs.Coupling
import FlatLisp.Proofs.Nesting

/-! The special forms on two machines. A coupling that holds of the operands and of the loops holds
of the special form. -/
namespace FlatLisp
open Machine Eval Nesting

/-- The function that a definition with these operands stores. -/
def Defines (operands : List (List Token)) (f : UserFunction (List Token)) : Prop :=
  ∃ target parameterList body, operands = [target] :: parameterList :: body ∧
    target.kind = .symbol ∧ target.text = f.name ∧ Builtin.ofSymbol? f.name = none ∧
    parametersOf f.name parameterList = .ok f.parameters ∧ body ≠ [] ∧ f.body = body.flatten

theorem parameterNames_cons_eq_ok_iff {function : String} {earlier names : List String} {t : Token}
    {tokens : List Token} :
    parameterNames function earlier (t :: tokens) = .ok names ↔
      t.kind = .symbol ∧ t.text ∉ earlier ∧
        ∃ rest, parameterNames function (t.text :: earlier) tokens = .ok rest ∧
          names = t.text :: rest := by
  simp only [parameterNames]
  split
  · simp_all
  · split
    · simp_all
    · cases parameterNames function (t.text :: earlier) tokens <;>
        simp_all [Except.map, eq_comm]

/-- What is read as parameters is symbols, no two of them alike and none of them earlier. -/
theorem parameterNames_eq_ok_iff {function : String} {earlier names : List String}
    {tokens : List Token} :
    parameterNames function earlier tokens = .ok names ↔
      tokens = names.map (Token.mk .symbol) ∧ names.Nodup ∧ ∀ n ∈ names, n ∉ earlier := by
  induction tokens generalizing earlier names with
  | nil => cases names <;> simp [parameterNames]
  | cons t tokens ih =>
    rw [parameterNames_cons_eq_ok_iff]
    constructor
    · rintro ⟨hk, hnew, rest, hrest, rfl⟩
      obtain ⟨rfl, hnodup, hfresh⟩ := ih.mp hrest
      refine ⟨?_, List.nodup_cons.mpr ⟨fun hm => ?_, hnodup⟩, ?_⟩
      · rw [List.map_cons, ← hk]
      · exact hfresh _ hm (List.mem_cons_self ..)
      · refine List.forall_mem_cons.mpr ⟨hnew, fun n hm he => ?_⟩
        exact hfresh n hm (List.mem_cons_of_mem _ he)
    · rintro ⟨he, hnodup, hfresh⟩
      cases names with
      | nil => cases he
      | cons name rest =>
        obtain ⟨rfl, rfl⟩ := List.cons_eq_cons.mp he
        obtain ⟨hname, hnodup⟩ := List.nodup_cons.mp hnodup
        obtain ⟨hnew, hfresh⟩ := List.forall_mem_cons.mp hfresh
        refine ⟨rfl, hnew, rest, ih.mpr ⟨rfl, hnodup, fun n hm he => ?_⟩, rfl⟩
        obtain rfl | he := List.mem_cons.mp he
        · exact hname hm
        · exact hfresh n hm he

/-- The parameters are the symbols in the operand that lists them, no two of them alike. -/
theorem parametersOf_eq_ok_iff {function : String} {operand : List Token} {names : List String} :
    parametersOf function operand = .ok names ↔
      (∃ first last, operand = first :: (names.map (Token.mk .symbol) ++ [last]) ∧
        first.isOpen ∧ last.isClose) ∧ names.Nodup := by
  simp only [parametersOf]
  constructor
  · intro h
    split at h
    · rename_i inner he
      obtain ⟨first, last, rfl, hparens⟩ := enclosed?_eq_some_iff.mp he
      obtain ⟨rfl, hnodup, -⟩ := parameterNames_eq_ok_iff.mp h
      exact ⟨⟨first, last, rfl, hparens⟩, hnodup⟩
    · cases h
  · rintro ⟨⟨first, last, rfl, hparens⟩, hnodup⟩
    rw [enclosed?_eq_some_iff.mpr ⟨first, last, rfl, hparens⟩]
    exact parameterNames_eq_ok_iff.mpr ⟨rfl, hnodup, by simp⟩

theorem nodup_of_parametersOf {function : String} {operand : List Token} {names : List String}
    (h : parametersOf function operand = .ok names) :
    names.Nodup ∧ ∀ n ∈ names, ∃ t ∈ operand, t.kind = .symbol ∧ t.text = n := by
  obtain ⟨⟨first, last, rfl, -, -⟩, hnodup⟩ := parametersOf_eq_ok_iff.mp h
  exact ⟨hnodup, fun n hn => ⟨⟨.symbol, n⟩, by simp [hn], rfl, rfl⟩⟩

namespace Coupling
variable {V : Vocabulary} {m₁ m₂ : Type → Type} [Machine (List Token) m₁]
  [Machine (List Token) m₂] (c : Coupling V m₁ m₂) {self₁ : List Token → m₁ Value}
  {self₂ : List Token → m₂ Value}

/-- The operands are spelled in the vocabulary and have the same value on the two machines. -/
def Operands (self₁ : List Token → m₁ Value) (self₂ : List Token → m₂ Value)
    (xs : List (List Token)) : Prop :=
  ∀ x ∈ xs, V.Spells x ∧ c.Rel (Same V.Good) (evalOperand self₁ x) (evalOperand self₂ x)

variable {c}

theorem rel_evalOperand {x : List Token} (hn : V.Spells x)
    (hs : c.Rel (Same V.Good) (self₁ x) (self₂ x)) :
    c.Rel (Same V.Good) (evalOperand self₁ x) (evalOperand self₂ x) := by
  match x with
  | [] => exact c.fail _
  | [t] =>
    simp only [evalOperand, evalAtom]
    cases hk : t.kind with
    | number => exact c.rel_integerLiteral t.text
    | symbol => exact c.rel_evalSymbol (hn t (by simp) hk)
    | opening => exact c.fail _
    | closing => exact c.fail _
  | t :: u :: ts =>
    simp only [evalOperand]
    split
    · exact hs
    · exact c.fail _

theorem Operands.head {x : List Token} {xs : List (List Token)}
    (h : c.Operands self₁ self₂ (x :: xs)) :
    c.Rel (Same V.Good) (evalOperand self₁ x) (evalOperand self₂ x) := (h x (by simp)).2

theorem Operands.tail {x : List Token} {xs : List (List Token)}
    (h : c.Operands self₁ self₂ (x :: xs)) : c.Operands self₁ self₂ xs :=
  fun y hy => h y (by simp [hy])

theorem Operands.rel_evalOperands {xs : List (List Token)} (h : c.Operands self₁ self₂ xs) :
    c.Rel (Same fun vs => ∀ v ∈ vs, V.Good v) (evalOperands self₁ xs) (evalOperands self₂ xs) := by
  induction xs with
  | nil => exact c.pure ⟨rfl, by simp⟩
  | cons x xs ih =>
    refine c.bind h.head ?_
    intro v v' hv
    obtain ⟨rfl, hv⟩ := hv
    refine c.bind (ih h.tail) ?_
    intro vs vs' hvs
    obtain ⟨rfl, hvs⟩ := hvs
    exact c.pure ⟨rfl, by simpa using ⟨hv, hvs⟩⟩

theorem Operands.rel_evalSequence {xs : List (List Token)} (h : c.Operands self₁ self₂ xs)
    {last : Value} (hl : V.Good last) :
    c.Rel (Same V.Good) (evalSequence self₁ last xs) (evalSequence self₂ last xs) := by
  induction xs generalizing last with
  | nil => exact c.pure ⟨rfl, hl⟩
  | cons x xs ih =>
    refine c.bind h.head ?_
    intro v v' hv
    obtain ⟨rfl, hv⟩ := hv
    exact ih h.tail hv

theorem rel_nameOf (form : SpecialForm) {target : List Token} (hn : V.Spells target) :
    c.Rel (Same fun name => V.Name name ∧ ∃ t, target = [t] ∧ t.kind = .symbol ∧ t.text = name)
      (nameOf form target) (nameOf form target) := by
  match target with
  | [] => exact c.fail _
  | [t] =>
    simp only [nameOf]
    split
    · exact c.pure ⟨rfl, hn t (by simp) ‹_›, t, rfl, ‹_›, rfl⟩
    · exact c.fail _
  | _ :: _ :: _ => exact c.fail _

theorem rel_evalSetq {xs : List (List Token)} (h : c.Operands self₁ self₂ xs) :
    c.Rel (Same V.Good) (evalSetq self₁ xs) (evalSetq self₂ xs) := by
  match xs with
  | [target, x] =>
    have htarget : V.Spells target := (h target (by simp)).1
    have hvalue := h.tail.head
    refine c.bind (rel_nameOf .setq htarget) ?_
    intro name name' hname
    obtain ⟨rfl, hn, -⟩ := hname
    refine c.bind hvalue ?_
    intro v v' hv
    obtain ⟨rfl, hv⟩ := hv
    refine c.bind (c.assign hn hv) fun _ _ _ => ?_
    exact c.pure ⟨rfl, V.normalized hv⟩
  | [] => exact c.fail _
  | [_] => exact c.fail _
  | _ :: _ :: _ :: _ => exact c.fail _

theorem rel_evalPrint {xs : List (List Token)} (h : c.Operands self₁ self₂ xs) :
    c.Rel (Same V.Good) (evalPrint self₁ xs) (evalPrint self₂ xs) := by
  match xs with
  | [x] =>
    refine c.bind h.head ?_
    intro v v' hv
    obtain ⟨rfl, hv⟩ := hv
    exact c.bind (c.print hv) fun _ _ _ => c.pure ⟨rfl, hv⟩
  | [] => exact c.fail _
  | _ :: _ :: _ => exact c.fail _

theorem rel_evalDefun {xs : List (List Token)} (h : c.Operands self₁ self₂ xs)
    (hd : ∀ f, Defines xs f → c.Stored f f) :
    c.Rel (Same V.Good) (evalDefun xs) (evalDefun xs) := by
  match xs with
  | target :: parameterList :: body =>
    have htarget : V.Spells target := (h target (by simp)).1
    refine c.bind (rel_nameOf .defun htarget) ?_
    intro name name' hname
    obtain ⟨rfl, hn, t, rfl, hk, ht⟩ := hname
    cases hb : Builtin.ofSymbol? name with
    | some b =>
      simp only [Option.isSome_some, if_true]
      exact c.fail _
    | none =>
      simp only [Option.isSome_none, Bool.false_eq_true, if_false]
      cases hp : parametersOf name parameterList with
      | error cause => exact c.fail _
      | ok parameters =>
        simp only
        split
        · exact c.fail _
        · rename_i hne
          refine c.bind (c.define (hd _ ?_)) fun _ _ _ => c.pure ⟨rfl, V.text hn⟩
          exact ⟨t, parameterList, body, rfl, hk, ht, hb, hp, by simpa using hne, rfl⟩
  | [] => exact c.fail _
  | [_] => exact c.fail _

theorem rel_evalIf {xs : List (List Token)} (h : c.Operands self₁ self₂ xs) :
    c.Rel (Same V.Good) (evalIf self₁ xs) (evalIf self₂ xs) := by
  match xs with
  | [condition, yes] =>
    have hyes := h.tail.head
    refine c.bind h.head ?_
    intro v v' hv
    obtain ⟨rfl, -⟩ := hv
    split
    · exact hyes
    · exact c.pure ⟨rfl, V.empty⟩
  | [condition, yes, no] =>
    have hyes := h.tail.head
    have hno := h.tail.tail.head
    refine c.bind h.head ?_
    intro v v' hv
    obtain ⟨rfl, -⟩ := hv
    split
    · exact hyes
    · exact hno
  | [] => exact c.fail _
  | [_] => exact c.fail _
  | _ :: _ :: _ :: _ :: _ => exact c.fail _

/-- Loops that begin their first round, with the number of steps that each machine has. -/
def Loops (c : Coupling V m₁ m₂) (steps₁ steps₂ : Nat) : Prop :=
  ∀ condition₁ condition₂ body₁ body₂, c.Rel (Same V.Good) condition₁ condition₂ →
    c.Rel (Same V.Good) body₁ body₂ →
    c.Rel (Same V.Good) (loop condition₁ body₁ steps₁ 0 (.integer 0))
      (loop condition₂ body₂ steps₂ 0 (.integer 0))

theorem rel_evalWhile {steps₁ steps₂ : Nat} (hl : c.Loops steps₁ steps₂)
    {xs : List (List Token)} (h : c.Operands self₁ self₂ xs) :
    c.Rel (Same V.Good) (evalWhile self₁ steps₁ xs) (evalWhile self₂ steps₂ xs) := by
  match xs with
  | condition :: body =>
    have hbody := h.tail.rel_evalSequence V.empty
    exact hl _ _ _ _ h.head hbody
  | [] => exact c.fail _

theorem rel_evalFor {steps₁ steps₂ : Nat} (hl : c.Loops steps₁ steps₂)
    {xs : List (List Token)} (h : c.Operands self₁ self₂ xs) :
    c.Rel (Same V.Good) (evalFor self₁ steps₁ xs) (evalFor self₂ steps₂ xs) := by
  match xs with
  | [start, condition, body, update] =>
    have hcondition := h.tail.head
    have hbody := h.tail.tail.head
    have hupdate := h.tail.tail.tail.head
    refine c.bind h.head ?_
    intro _ _ _
    apply hl _ _ _ _ hcondition
    refine c.bind hbody ?_
    intro v v' hv
    exact c.bind hupdate fun _ _ _ => c.pure hv
  | [] => exact c.fail _
  | [_] => exact c.fail _
  | [_, _] => exact c.fail _
  | [_, _, _] => exact c.fail _
  | _ :: _ :: _ :: _ :: _ :: _ => exact c.fail _

theorem rel_evalSpecial {steps₁ steps₂ : Nat} (hl : c.Loops steps₁ steps₂)
    {xs : List (List Token)} (h : c.Operands self₁ self₂ xs)
    (hd : ∀ f, Defines xs f → c.Stored f f) (form : SpecialForm) :
    c.Rel (Same V.Good) (evalSpecial self₁ steps₁ form xs)
      (evalSpecial self₂ steps₂ form xs) := by
  cases form with
  | setq => exact rel_evalSetq h
  | print => exact rel_evalPrint h
  | defun => exact rel_evalDefun h hd
  | cond => exact rel_evalIf h
  | loopWhile => exact rel_evalWhile hl h
  | loopFor => exact rel_evalFor hl h

end Coupling
end FlatLisp
