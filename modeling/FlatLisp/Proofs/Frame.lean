import FlatLisp.Proofs.Ending
import FlatLisp.Proofs.Environment
import FlatLisp.Token.Lexer
import Mathlib.Data.List.Forall2

/-! What an evaluation leaves as it was, whether it succeeds or fails and wherever it fails: the
calls around it, the scopes around its own, and everything that has been printed. -/
namespace FlatLisp
open Machine Evaluation

variable {β α γ : Type}

/-- The scope is a later state of another one, of which no name has been lost. -/
structure Scope.Grows (s t : Scope) : Prop where
  isolated : t.isolated = s.isolated
  bound : ∀ name, (s.get? name).isSome → (t.get? name).isSome

namespace Scope.Grows

theorem refl (s : Scope) : Grows s s := ⟨rfl, fun _ h => h⟩

theorem trans {s t u : Scope} (h : Grows s t) (h' : Grows t u) : Grows s u :=
  ⟨h'.isolated.trans h.isolated, fun name hn => h'.bound name (h.bound name hn)⟩

theorem define (s : Scope) (name : String) (v : Value) : Grows s (s.define name v) := by
  refine ⟨rfl, fun other h => ?_⟩
  rw [Scope.get?_define]
  split
  · rfl
  · exact h

end Scope.Grows

theorem forall₂_grows_trans {xs ys zs : List Scope} (h : List.Forall₂ Scope.Grows xs ys)
    (h' : List.Forall₂ Scope.Grows ys zs) : List.Forall₂ Scope.Grows xs zs := by
  induction h generalizing zs with
  | nil => exact h'
  | cons ha _ ih =>
    cases h' with
    | cons hb h' => exact .cons (ha.trans hb) (ih h')

/-- The second state is one that an evaluation from the first one may end in. There are as many
scopes as before, and only the innermost of them, or else the globals, may have changed. -/
structure Framed (s t : State β) : Prop where
  depth : t.env.depth = s.env.depth
  recursionLimit : t.env.recursionLimit = s.env.recursionLimit
  scopes : List.Forall₂ Scope.Grows s.env.scopes t.env.scopes
  outer : t.env.scopes.tail = s.env.scopes.tail
  globals : Scope.Grows s.env.globals t.env.globals
  globals_eq : s.env.scopes ≠ [] → t.env.globals = s.env.globals
  functions : ∀ name, (s.env.function? name).isSome → (t.env.function? name).isSome
  output : ∃ lines, t.output = s.output ++ lines

namespace Framed
variable {s t u : State β}

theorem refl (s : State β) : Framed s s where
  depth := rfl
  recursionLimit := rfl
  scopes := List.forall₂_same.mpr fun a _ => .refl a
  outer := rfl
  globals := .refl _
  globals_eq _ := rfl
  functions _ h := h
  output := ⟨#[], by simp⟩

theorem trans (h : Framed s t) (h' : Framed t u) : Framed s u where
  depth := h'.depth.trans h.depth
  recursionLimit := h'.recursionLimit.trans h.recursionLimit
  scopes := forall₂_grows_trans h.scopes h'.scopes
  outer := h'.outer.trans h.outer
  globals := h.globals.trans h'.globals
  globals_eq hs := by
    have ht : t.env.scopes ≠ [] := by
      intro ht
      exact hs (List.forall₂_nil_right_iff.mp (ht ▸ h.scopes))
    exact (h'.globals_eq ht).trans (h.globals_eq hs)
  functions name hn := h'.functions name (h.functions name hn)
  output := by
    obtain ⟨xs, hx⟩ := h.output
    obtain ⟨ys, hy⟩ := h'.output
    exact ⟨xs ++ ys, by rw [hy, hx, Array.append_assoc]⟩

theorem scopes_eq_nil (h : Framed s t) (hs : s.env.scopes = []) : t.env.scopes = [] :=
  List.forall₂_nil_left_iff.mp (hs ▸ h.scopes)

theorem assign (s : State β) (name : String) (v : Value) :
    Framed s { s with env := s.env.assign name v } := by
  have hr := refl s
  simp only [Environment.assign]
  split
  · rename_i he
    exact { hr with
      globals := .define _ name v
      globals_eq := fun h => absurd he h }
  · rename_i a rest he
    refine { hr with scopes := ?_, outer := ?_ }
    · rw [he]
      exact .cons (.define a name v) (List.forall₂_same.mpr fun b _ => .refl b)
    · rw [he]
      rfl

theorem define (s : State β) (f : UserFunction β) :
    Framed s { s with env := s.env.define f } := by
  refine { refl s with functions := fun name h => ?_ }
  simp only [Environment.function?_define]
  split
  · rfl
  · exact h

theorem print (s : State β) (line : String) :
    Framed s { s with output := s.output.push line } :=
  { refl s with output := ⟨#[line], rfl⟩ }

/-- After a body that began in a new scope, with one more call counted, taking both back restores
all scopes, whatever the body did to its own. -/
theorem pop_exit_eq {e : Environment β} {rule : CallScope} (he : s.env.enter = .ok e)
    (h : Framed { s with env := e.pushCall rule } t) :
    t.env.pop.exit = { s.env with functions := t.env.functions } := by
  obtain ⟨-, rfl⟩ := Environment.enter_eq_ok_iff.mp he
  obtain ⟨a, ha⟩ := Environment.pushCall_eq { s.env with depth := s.env.depth + 1 } rule
  rw [ha] at h
  have hscopes : t.env.scopes.tail = s.env.scopes := h.outer
  have hglobals : t.env.globals = s.env.globals := h.globals_eq (List.cons_ne_nil _ _)
  have hdepth : t.env.depth = s.env.depth + 1 := h.depth
  have hlimit : t.env.recursionLimit = s.env.recursionLimit := h.recursionLimit
  simp only [Environment.exit, Environment.pop, hscopes, hglobals, hdepth, hlimit,
    Nat.add_sub_cancel]

theorem call {e : Environment β} {rule : CallScope} (he : s.env.enter = .ok e)
    (h : Framed { s with env := e.pushCall rule } t) :
    Framed s { t with env := t.env.pop.exit } := by
  rw [h.pop_exit_eq he]
  obtain ⟨-, rfl⟩ := Environment.enter_eq_ok_iff.mp he
  obtain ⟨a, ha⟩ := Environment.pushCall_eq { s.env with depth := s.env.depth + 1 } rule
  rw [ha] at h
  exact { refl s with
    functions := h.functions
    output := h.output }

end Framed

namespace Evaluation

theorem bind_eq_some {x : Evaluation β α} {f : α → Evaluation β γ} {o : Options}
    {s t : State β} {r : Except Error γ} (h : (x >>= f) o s = some (r, t)) :
    (∃ e, x o s = some (.error e, t) ∧ r = .error e) ∨
      ∃ a u, x o s = some (.ok a, u) ∧ f a o u = some (r, t) := by
  simp only [Bind.bind] at h
  cases hx : x o s with
  | none => simp [hx] at h
  | some p =>
    obtain ⟨q, u⟩ := p
    cases q with
    | error e =>
      simp only [hx, Option.some.injEq, Prod.mk.injEq] at h
      obtain ⟨rfl, rfl⟩ := h
      exact .inl ⟨e, rfl, rfl⟩
    | ok a =>
      simp only [hx] at h
      exact .inr ⟨a, u, rfl, h⟩

theorem bind_eq_ok {x : Evaluation β α} {f : α → Evaluation β γ} {o : Options} {s t : State β}
    {c : γ} (h : (x >>= f) o s = some (.ok c, t)) :
    ∃ a u, x o s = some (.ok a, u) ∧ f a o u = some (.ok c, t) := by
  obtain ⟨e, -, he⟩ | hok := bind_eq_some h
  · cases he
  · exact hok

theorem located_eq_some {form : List Token} {x : Evaluation β α} {o : Options} {s t : State β}
    {r : Except Error α} (h : located form x o s = some (r, t)) :
    ∃ q, x o s = some (q, t) ∧ ∀ a, r = .ok a → q = .ok a := by
  simp only [located] at h
  split at h
  · rename_i e u hx
    obtain ⟨rfl, rfl⟩ : _ ∧ u = t := by simpa using h
    exact ⟨_, hx, by simp⟩
  · exact ⟨r, h, fun a ha => ha⟩

theorem called_eq_some {x : Evaluation β α} {o : Options} {s t : State β}
    {r : Except Error α} (h : called x o s = some (r, t)) :
    (∃ f, s.env.enter = .error f ∧ r = .error (.bare f) ∧ t = s) ∨
      ∃ e u, s.env.enter = .ok e ∧
        x o { s with env := e.pushCall o.callScope } = some (r, u) ∧
        t = { u with env := u.env.pop.exit } := by
  simp only [called] at h
  cases he : s.env.enter with
  | error f =>
    simp only [he, Option.some.injEq, Prod.mk.injEq] at h
    exact .inl ⟨f, rfl, h.1.symm, h.2.symm⟩
  | ok e =>
    simp only [he] at h
    split at h
    · rename_i q u hx
      obtain ⟨rfl, rfl⟩ : q = r ∧ _ = t := by simpa using h
      exact .inr ⟨e, u, rfl, hx, rfl⟩
    · cases h

theorem state_of_guardRound {n : Nat} {o : Options} {s t : State β} {r : Except Error Unit}
    (h : guardRound n o s = some (r, t)) : t = s := by
  simp only [guardRound] at h
  repeat' split at h
  all_goals exact (congrArg Prod.snd (Option.some.inj h)).symm

/-- Every error that the evaluation ends in has the property. -/
def Raises (P : Error → Prop) (x : Evaluation β α) : Prop :=
  ∀ o s e t, x o s = some (.error e, t) → P e

namespace Raises
variable {P : Error → Prop} {x : Evaluation β α}

theorem of_ok (h : ∀ o s, ∃ a t, x o s = some (.ok a, t)) : Raises P x := by
  intro o s e t he
  obtain ⟨a, u, ha⟩ := h o s
  cases ha.symm.trans he

theorem pure (a : α) : Raises P (Pure.pure a : Evaluation β α) := .of_ok fun _ s => ⟨a, s, rfl⟩

theorem exhausted : Raises P (Machine.exhausted : Evaluation β α) := by
  intro o s e t he
  cases he

theorem fail {f : Fault} (h : P (.bare f)) : Raises P (Machine.fail f : Evaluation β α) := by
  intro o s e t he
  cases he
  exact h

theorem bind {f : α → Evaluation β γ} (hx : Raises P x) (hf : ∀ a, Raises P (f a)) :
    Raises P (x >>= f) := by
  intro o s e t he
  obtain ⟨g, hg, he⟩ | ⟨a, u, -, hu⟩ := bind_eq_some he
  · obtain rfl := Except.error.inj he
    exact hx o s _ t hg
  · exact hf a o u e t hu

variable (hlimit : ∀ limit, P (.bare (.iterationLimit limit)))
include hlimit

theorem startRound (n : Nat) : Raises P (Machine.startRound n : Evaluation β Unit) := by
  intro o s e t he
  simp only [Machine.startRound, guardRound] at he
  split at he
  · split at he
    · cases he
      exact hlimit _
    · cases he
  · cases he

theorem loop {condition body : Evaluation β Value} (hc : Raises P condition) (hb : Raises P body)
    (steps rounds : Nat) (last : Value) :
    Raises P (Eval.loop condition body steps rounds last) := by
  induction steps generalizing rounds last with
  | zero => exact .exhausted
  | succ steps ih =>
    refine hc.bind fun c => ?_
    split
    · exact (startRound hlimit rounds).bind fun _ => hb.bind fun v => ih _ v
    · exact .pure last

end Raises

end Evaluation

/-- However the evaluation ends, the state is framed. If it ends well, `P` holds of the result. -/
def Frames (P : α → Prop) (x : Evaluation β α) : Prop :=
  ∀ o s r t, x o s = some (r, t) → Framed s t ∧ ∀ a, r = .ok a → P a

namespace Frames
variable {P : α → Prop} {Q : γ → Prop} {x : Evaluation β α}

theorem of_step (h : ∀ o s, ∃ a t, x o s = some (.ok a, t) ∧ Framed s t ∧ P a) : Frames P x := by
  intro o s r t hr
  obtain ⟨a, u, hx, hs, ha⟩ := h o s
  obtain ⟨rfl, rfl⟩ : Except.ok a = r ∧ u = t := by simpa using hx.symm.trans hr
  exact ⟨hs, fun b hb => Except.ok.inj hb ▸ ha⟩

theorem fail (f : Fault) : Frames P (Machine.fail f : Evaluation β α) := by
  intro o s r t hr
  cases hr
  exact ⟨.refl s, by simp⟩

theorem bind {f : α → Evaluation β γ} (hx : Frames P x) (hf : ∀ a, P a → Frames Q (f a)) :
    Frames Q (x >>= f) := by
  intro o s r t hr
  obtain ⟨e, he, rfl⟩ | ⟨a, u, ha, hu⟩ := Evaluation.bind_eq_some hr
  · exact ⟨(hx o s _ t he).1, by simp⟩
  · obtain ⟨hsu, hP⟩ := hx o s _ u ha
    obtain ⟨hut, hQ⟩ := hf a (hP a rfl) o u r t hu
    exact ⟨hsu.trans hut, hQ⟩

theorem located (form : List Token) (hx : Frames P x) :
    Frames P (Evaluation.located form x) := by
  intro o s r t hr
  obtain ⟨q, hq, hok⟩ := Evaluation.located_eq_some hr
  obtain ⟨hst, hP⟩ := hx o s q t hq
  exact ⟨hst, fun a ha => hP a (hok a ha)⟩

theorem called (hx : Frames P x) : Frames P (Evaluation.called x) := by
  intro o s r t hr
  obtain ⟨f, -, rfl, rfl⟩ | ⟨e, u, he, hu, rfl⟩ := Evaluation.called_eq_some hr
  · exact ⟨.refl _, by simp⟩
  · obtain ⟨hsu, hP⟩ := hx o _ r u hu
    exact ⟨hsu.call he, hP⟩

end Frames

/-- A coupling in which only the first one of two evaluations is looked at. -/
def framing : Coupling .full (Evaluation (List Token)) (Evaluation (List Token)) where
  Stored := Eq
  Rel A x _ := Frames (fun a => ∃ b, A a b) x
  pure h := .of_step fun _ s => ⟨_, s, rfl, .refl s, _, h⟩
  bind hx hf := hx.bind fun a ⟨b, hb⟩ => hf a b hb
  fail f := .fail f
  inForm form h := h.located form
  lookup _ := .of_step fun _ s => ⟨_, s, rfl, .refl s, _, rfl, fun _ _ => trivial⟩
  assign _ _ := .of_step fun _ s => ⟨_, _, rfl, .assign s _ _, ⟨⟩, rfl⟩
  function? _ := .of_step fun _ s => ⟨_, s, rfl, .refl s, _, optionRel_eq _⟩
  define _ := .of_step fun _ s => ⟨_, _, rfl, .define s _, ⟨⟩, rfl⟩
  print _ := .of_step fun _ s => ⟨_, _, rfl, .print s _, ⟨⟩, rfl⟩

theorem framing_uniform : framing.Uniform (fun _ => True) 0 := by
  apply Coupling.Uniform.of_full
  · exact fun _ _ => Iff.rfl
  · intro y hy o s r t hr
    cases hr
  · intro n o s r t hr
    obtain rfl := state_of_guardRound hr
    exact ⟨.refl t, fun a _ => ⟨a, rfl⟩⟩
  · exact fun f x y h => h.called

/-- With however many steps, on whatever tokens and from whatever state: where a form, a program or
a special form on its own ends, the state is framed. -/
theorem framed_of_end (steps rounds : Nat) (tokens : List Token) (form : SpecialForm)
    (operands : List (List Token)) {o : Options} {s t : State (List Token)}
    {r : Except Error Value}
    (h : ofForm tokens steps o s = some (r, t) ∨ ofProgram tokens steps o s = some (r, t) ∨
      ofSpecial form operands rounds steps o s = some (r, t)) : Framed s t := by
  obtain h | h | h := h
  · exact (framing_uniform.rel_evaluate steps trivial o s r t h).1
  · exact (framing_uniform.rel_evaluateProgram steps (fun _ _ => trivial) o s r t h).1
  · exact (framing_uniform.rel_evalSpecial steps rounds form (fun _ _ => trivial)
      (fun _ _ => rfl) o s r t h).1

/-- A program that fails two calls deep, after it has printed, assigned and defined something. -/
def failing : List Token :=
  Lexer.cut "(defun f (n) (print n) (setq x n) (defun g () n) (if (= n 0) (/ 1 n) (f (- n 1))))
    (setq x 5) (f 1)".toList

/-- The state within a call that has printed a line. -/
def withinCall : State (List Token) := ⟨⟨{}, [{}], ∅, 1, defaultRecursionLimit⟩, #["before"]⟩

theorem framed_failing :
    ∃ e t, ofProgram failing 20 {} withinCall = some (.error e, t) ∧ Framed withinCall t := by
  have hf : ((ofProgram failing 20 {} withinCall).bind fun p => faultOf? p.1) =
      some .divisionByZero := by
    decide +kernel
  obtain ⟨⟨r, t⟩, hr, he⟩ := Option.bind_eq_some_iff.mp hf
  cases r with
  | ok v => cases he
  | error e => exact ⟨e, t, hr, framed_of_end 20 0 failing .print [] (.inr (.inl hr))⟩

end FlatLisp
