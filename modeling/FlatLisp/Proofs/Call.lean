import FlatLisp.Proofs.Frame
import FlatLisp.Proofs.Tree.Split

/-! Calls of user functions. All that a call does to variables, it does in a scope of its own, which
is gone when the call is over. -/
namespace FlatLisp
open Machine Eval Nesting Evaluation

/-- A form that stands anywhere, as an evaluation that runs with a number of steps. -/
abbrev Evaluation.ofNested (form : List Token) (steps : Nat) : Evaluation (List Token) Value :=
  evalForm steps form

/-- Operands one after another, likewise. -/
abbrev Evaluation.ofOperands (xs : List (List Token)) (steps : Nat) :
    Evaluation (List Token) (List Value) := evalOperands (evalForm steps) xs

/-- A call with arguments that have been evaluated, likewise. -/
abbrev Evaluation.ofInvoke (f : UserFunction (List Token)) (args : List Value) (steps : Nat) :
    Evaluation (List Token) Value := invoke (evalForm steps) f args

/-- The form calls the function, which is stored in the environment, with these operands. -/
def IsCall (env : Environment (List Token)) (form : List Token) (f : UserFunction (List Token))
    (xs : List (List Token)) : Prop :=
  ∃ head rest, enclosed? form = some (head :: rest) ∧ head.kind = .symbol ∧
    Builtin.ofSymbol? head.text = none ∧ env.function? head.text = some f ∧
    splitOperands rest = .ok xs

/-- The form applies the builtin to these operands. -/
def Applies (form : List Token) (b : Builtin) (xs : List (List Token)) : Prop :=
  ∃ head rest, enclosed? form = some (head :: rest) ∧ head.kind = .symbol ∧
    Builtin.ofSymbol? head.text = some b ∧ splitOperands rest = .ok xs

/-- The form with the name at its head and these operands, as it is written. -/
def headedBy (name : String) (xs : List (List Token)) : List Token :=
  .openParen :: ⟨.symbol, name⟩ :: (xs.flatten ++ [.closeParen])

section Headed
variable {name : String} {xs : List (List Token)}

theorem enclosed?_headedBy (name : String) (xs : List (List Token)) :
    enclosed? (headedBy name xs) = some (⟨.symbol, name⟩ :: xs.flatten) :=
  enclosed?_eq_some_iff.mpr ⟨.openParen, .closeParen, rfl, rfl, rfl⟩

theorem isForm_headedBy (name : String) (h : ∀ x ∈ xs, IsOperand x) :
    IsForm (headedBy name xs) := by
  have hname : Balanced [⟨.symbol, name⟩] := rfl
  exact ⟨.openParen, _, .closeParen, rfl, rfl, rfl, hname.append (balanced_flatten h)⟩

theorem isOperand_headedBy (name : String) (h : ∀ x ∈ xs, IsOperand x) :
    IsOperand (headedBy name xs) := .inr (isForm_headedBy name h)

theorem applies_headedBy (b : Builtin) (h : ∀ x ∈ xs, IsOperand x) :
    Applies (headedBy b.symbol xs) b xs :=
  ⟨⟨.symbol, b.symbol⟩, xs.flatten, enclosed?_headedBy b.symbol xs, rfl,
    Builtin.ofSymbol?_symbol b, splitOperands_flatten h⟩

theorem isCall_headedBy {env : Environment (List Token)} {f : UserFunction (List Token)}
    (hb : Builtin.ofSymbol? name = none) (hf : env.function? name = some f)
    (h : ∀ x ∈ xs, IsOperand x) : IsCall env (headedBy name xs) f xs :=
  ⟨⟨.symbol, name⟩, xs.flatten, enclosed?_headedBy name xs, rfl, hb, hf, splitOperands_flatten h⟩

end Headed

/-- Apart from the functions that are stored, the environment is as before, and lines have only
been added to the output. -/
structure KeepsVariables {β : Type} (s t : State β) : Prop where
  env : t.env = { s.env with functions := t.env.functions }
  output : ∃ lines, t.output = s.output ++ lines

theorem KeepsVariables.refl {β : Type} (s : State β) : KeepsVariables s s := ⟨rfl, #[], by simp⟩

variable {form : List Token} {xs : List (List Token)} {f : UserFunction (List Token)}
  {args : List Value} {o : Options} {s t : State (List Token)} {r : Except Error Value}

theorem endsIn_ofNested_iff {p : Except Error Value × State (List Token)} :
    EndsIn (ofNested form) o s p ↔ ∃ steps, ofNested form steps o s = some p :=
  endsIn_iff fun steps extra => (moreSteps_uniform o extra).rel_evalForm steps trivial

/-- Naming a form in an error is all that it does to an end. -/
theorem located_eq_map {β α : Type} (form : List Token) (x : Evaluation β α) (o : Options)
    (s : State β) :
    located form x o s = (x o s).map (Prod.map (Except.mapError (·.locate form)) id) := by
  simp only [located]
  rcases x o s with _ | ⟨_ | _, _⟩ <;> rfl

theorem located_congr {β α : Type} {x y : Evaluation β α} {s : State β} (form : List Token)
    (h : x o s = y o s) : located form x o s = located form y o s := by
  simp only [located_eq_map, h]

/-- The operands of a call are evaluated where the call stands. The rest of it is `invoke`. -/
theorem evalForm_of_isCall (h : IsCall s.env form f xs) (steps : Nat) :
    ofNested form (steps + 1) o s =
      located form (ofOperands xs steps >>= fun args => ofInvoke f args steps) o s := by
  obtain ⟨head, rest, he, hk, hb, hf, hs⟩ := h
  refine located_congr form ?_
  simp only [dispatch, he, evalInner, hk, hs, Machine.ofExcept, pure_bind, applyName, hb]
  simp only [Bind.bind, function?, Evaluation.read, hf]

theorem evalForm_of_applies {b : Builtin} (h : Applies form b xs) (steps : Nat) :
    ofNested form (steps + 1) = located form (evalBuiltin (evalForm steps) steps b xs) := by
  obtain ⟨head, rest, he, hk, hb, hs⟩ := h
  refine congrArg (located form) ?_
  simp only [dispatch, he, evalInner, hk, hs, Machine.ofExcept, pure_bind, applyName, hb]

theorem evalBuiltin_operator {op : Operator} (ha : op.arity.accepts xs.length)
    (self : List Token → Evaluation (List Token) Value) (rounds : Nat) :
    evalBuiltin self rounds (.operator op) xs = evalOperator self op xs := by
  simp only [evalBuiltin, Builtin.arity, Arity.validate, ha, if_true, Machine.ofExcept, pure_bind]

theorem evalBuiltin_special {special : SpecialForm} (ha : special.arity.accepts xs.length)
    (self : List Token → Evaluation (List Token) Value) (rounds : Nat) :
    evalBuiltin self rounds (.special special) xs = evalSpecial self rounds special xs := by
  simp only [evalBuiltin, Builtin.arity, Arity.validate, ha, if_true, Machine.ofExcept, pure_bind]

theorem state_of_ofExcept {β α : Type} {x : Except Fault α} {q : Except Error α} {s u : State β}
    (h : (ofExcept x : Evaluation β α) o s = some (q, u)) : u = s := by
  cases x with
  | ok a =>
    cases h
    rfl
  | error f =>
    cases h
    rfl

/-- Whether the arguments are refused, the body cannot be split, too many calls are active or the
body is evaluated. -/
theorem keepsVariables_of_invoke {steps : Nat}
    (h : ofInvoke f args steps o s = some (r, t)) : KeepsVariables s t := by
  simp only [ofInvoke, invoke] at h
  split at h
  · obtain ⟨e, he, -⟩ | ⟨body, u, hu, hcall⟩ := bind_eq_some h
    · exact state_of_ofExcept he ▸ .refl _
    · obtain rfl := state_of_ofExcept hu
      obtain ⟨g, -, -, rfl⟩ | ⟨e, v, he, hv, rfl⟩ := called_eq_some hcall
      · exact .refl _
      · have hbody := framing_uniform.rel_callBody steps f.parameters args (fun _ _ => trivial)
          (fun _ _ => trivial) fun x (_ : x ∈ body) => trivial
        have hframed := (hbody o _ r v hv).1
        exact ⟨hframed.pop_exit_eq he, (hframed.call he).output⟩
  · cases h
    exact .refl s

/-- After the arguments have been evaluated, a call changes no variable anywhere, however it ends.
What a form that is a call does to variables is what its operands do. -/
theorem keepsVariables_of_call :
    (∀ f args steps o s r t, ofInvoke f args steps o s = some (r, t) → KeepsVariables s t) ∧
    ∀ form f xs steps o s r t, IsCall s.env form f xs →
      ofNested form (steps + 1) o s = some (r, t) →
      ∃ q u, ofOperands xs steps o s = some (q, u) ∧ KeepsVariables u t ∧
        ∀ e, q = .error e → r = .error (e.locate form) ∧ t = u := by
  refine ⟨fun _ _ _ _ _ _ _ h => keepsVariables_of_invoke h, ?_⟩
  intro form f xs steps o s r t hcall h
  rw [evalForm_of_isCall hcall, located_eq_map] at h
  obtain ⟨⟨q, t⟩, hx, he⟩ := Option.map_eq_some_iff.mp h
  obtain ⟨rfl, rfl⟩ : q.mapError (·.locate form) = r ∧ t = _ := by simpa using he
  obtain ⟨e, hargs, rfl⟩ | ⟨args, u, hargs, hcall⟩ := bind_eq_some hx
  · refine ⟨.error e, t, hargs, .refl t, ?_⟩
    rintro _ ⟨⟩
    exact ⟨rfl, rfl⟩
  · exact ⟨.ok args, u, hargs, keepsVariables_of_invoke hcall, by simp⟩

/-- A function that assigns to a global and to a name of its caller, defines another function and
prints before it fails. -/
def spill : UserFunction (List Token) :=
  ⟨"spill", ["k"], Lexer.cut
    "(setq total (+ total k)) (setq n 100) (defun h () n) (print total) (/ k 0)".toList⟩

/-- The state within a call, with the function at hand. -/
def beforeSpill : State (List Token) where
  env := Environment.define
    { globals := Scope.define {} "total" (.integer 5)
      scopes := [Scope.define {} "n" (.integer 1)]
      depth := 1 } spill

/-- The form increments a variable of its caller for an operand. -/
def spilling : List Token := Lexer.cut "(spill (setq n (+ n 1)))".toList

theorem isCall_spilling :
    IsCall beforeSpill.env spilling spill [Lexer.cut "(setq n (+ n 1))".toList] :=
  ⟨⟨.symbol, "spill"⟩, Lexer.cut "(setq n (+ n 1))".toList, by decide +kernel, rfl,
    by decide +kernel, by decide +kernel, by decide +kernel⟩

theorem keepsVariables_of_spilling :
    ∃ e t u, ofNested spilling 20 {} beforeSpill = some (.error e, t) ∧
      e.fault = .divisionByZero ∧ t.output = #["7"] ∧
      ofOperands [Lexer.cut "(setq n (+ n 1))".toList] 19 {} beforeSpill =
        some (.ok [.integer 2], u) ∧ KeepsVariables u t := by
  have hform : (ofNested spilling 20 {} beforeSpill).bind (fun p =>
      (faultOf? p.1).map fun f => (f, p.2.output)) = some (.divisionByZero, #["7"]) := by
    decide +kernel
  have hargs : (ofOperands [Lexer.cut "(setq n (+ n 1))".toList] 19 {} beforeSpill).bind
      (·.1.toOption) = some [.integer 2] := by
    decide +kernel
  obtain ⟨⟨r, t⟩, hr, he⟩ := Option.bind_eq_some_iff.mp hform
  obtain ⟨⟨q, u⟩, hq, hv⟩ := Option.bind_eq_some_iff.mp hargs
  obtain ⟨q', u', hq', hkeeps, -⟩ :=
    keepsVariables_of_call.2 _ _ _ 19 _ _ _ _ isCall_spilling hr
  obtain ⟨rfl, rfl⟩ : q = q' ∧ u = u' := by simpa using hq.symm.trans hq'
  cases r with
  | ok v => cases he
  | error e =>
    obtain ⟨hf, hout⟩ : e.fault = .divisionByZero ∧ t.output = #["7"] := by
      simpa [faultOf?] using he
    cases q with
    | error e => cases hv
    | ok vs =>
      obtain rfl : vs = [.integer 2] := Option.some.inj hv
      exact ⟨e, t, u, hr, hf, hout, hq, hkeeps⟩

end FlatLisp
