import FlatLisp.Proofs.Ending
import FlatLisp.Proofs.Tree.Split

/-! Programs one after another. The second one is evaluated as if it had been given by itself in the
state that the first one leaves, and what was printed before has no influence on it. -/
namespace FlatLisp
open Machine Nesting Evaluation

variable {β : Type} {tokens later : List Token} {xs ys : List (List Token)} {steps : Nat}
  {o : Options} {s t : State (List Token)} {v w : Value}

/-- The state with more lines printed before those that it has. -/
def State.behind (printed : Array String) (s : State β) : State β :=
  { s with output := printed ++ s.output }

section Printed
variable (printed : Array String)

theorem correspondence_behind :
    Correspondence .full Eq fun (s t : State β) => t = s.behind printed where
  lookup := by
    rintro s _ name _ rfl
    exact ⟨rfl, fun _ _ => trivial⟩
  assign := by
    rintro s _ name v _ _ rfl
    rfl
  function? := by
    rintro s _ name _ rfl
    exact optionRel_eq _
  define := by
    rintro s _ f _ rfl rfl
    rfl
  print := by
    rintro s _ v _ rfl
    simp [State.behind]

theorem calls_behind (o : Options) :
    Calls (fun _ => False) (fun (s t : State β) => t = s.behind printed) o o where
  refused := by
    rintro s _ f rfl he
    exact .inr he
  entered := by
    rintro s _ e rfl he
    exact ⟨e, he, rfl⟩
  left := by
    rintro s _ rfl
    rfl

/-- Runs that differ in what was printed before them. -/
def printedBefore (o : Options) :
    Coupling .full (Evaluation (List Token)) (Evaluation (List Token)) :=
  (correspondence_behind printed).coupling (fun _ => False) o o

theorem printedBefore_uniform (o : Options) :
    (printedBefore printed o).Uniform (fun _ => True) 0 := by
  apply Coupling.Uniform.of_full_zero
  · exact fun _ _ => Iff.rfl
  · exact fun _ _ _ => .exhausted
  · exact fun n _ _ hs => .guardRound n hs
  · intro f x y h s t hs
    exact Follows.called (calls_behind printed o) hs h

theorem ofProgram_behind (tokens : List Token) (steps : Nat) (o : Options)
    (s : State (List Token)) :
    ofProgram tokens steps o (s.behind printed) =
      (ofProgram tokens steps o s).map (Prod.map id (State.behind printed)) := by
  have h := (printedBefore_uniform printed o).rel_evaluateProgram steps
    (fun x (_ : x <:+: tokens) => trivial) s _ rfl
  exact h.eq_map fun _ _ ht => ht

end Printed

theorem eq_nil_iff_of_splitOperands (hx : splitOperands tokens = .ok xs) :
    tokens = [] ↔ xs = [] := by
  constructor
  · rintro rfl
    exact (Except.ok.inj hx).symm
  · rintro rfl
    exact (flatten_of_splitOperands hx).symm

/-- The forms of a program, likewise. -/
abbrev Evaluation.ofForms (last : Value) (forms : List (List Token)) (steps : Nat) :
    Evaluation (List Token) Value := evalForms steps last forms

theorem ofProgram_eq_ofForms (hx : splitOperands tokens = .ok xs) (steps : Nat) :
    ofProgram tokens steps = ofForms .empty xs steps := by
  obtain ⟨rfl, hn⟩ := splitOperands_eq_ok_iff.mp hx
  simp only [ofProgram, evaluateProgram, hn, bind_pure]

theorem ofForms_append (last : Value) (xs ys : List (List Token)) (steps : Nat) :
    ofForms last (xs ++ ys) steps = ofForms last xs steps >>= fun v => ofForms v ys steps := by
  induction xs generalizing last with
  | nil => rfl
  | cons x xs ih =>
    match x with
    | [t] => rfl
    | [] =>
      simp only [ofForms] at ih
      simp only [ofForms, List.cons_append, evalForms, bind_assoc, ih]
    | t :: u :: ts =>
      simp only [ofForms] at ih
      simp only [ofForms, List.cons_append, evalForms, bind_assoc, ih]

/-- The value so far counts only if there are no forms. -/
theorem ofForms_of_ne_nil (h : ys ≠ []) (v w : Value) (steps : Nat) :
    ofForms v ys steps = ofForms w ys steps := by
  match ys with
  | [] => exact absurd rfl h
  | [] :: _ => rfl
  | [_] :: _ => rfl
  | (_ :: _ :: _) :: _ => rfl

theorem ofProgram_append (ht : Balanced tokens) (hl : Balanced later) (steps : Nat) (o : Options)
    (s : State (List Token)) :
    ofProgram (tokens ++ later) steps o s =
      match ofProgram tokens steps o s with
      | some (.ok v, t) =>
        if later = [] then some (.ok v, t)
        else (ofProgram later steps o { env := t.env }).map (Prod.map id (State.behind t.output))
      | r => r := by
  obtain ⟨xs, hx⟩ := exists_splitOperands ht
  obtain ⟨ys, hy⟩ := exists_splitOperands hl
  have hnil := eq_nil_iff_of_splitOperands hy
  rw [ofProgram_eq_ofForms (splitOperands_append hx hy), ofProgram_eq_ofForms hx,
    ofForms_append]
  simp only [Bind.bind]
  rcases ofForms .empty xs steps o s with _ | ⟨_ | v, t⟩
  · rfl
  · rfl
  · have hbehind : State.behind t.output { env := t.env } = t := by simp [State.behind]
    simp only
    split
    · obtain rfl := hnil.mp ‹_›
      rfl
    · rw [← ofProgram_behind, hbehind, ofProgram_eq_ofForms hy,
        ofForms_of_ne_nil (fun h => ‹¬ later = []› (hnil.mpr h)) v .empty]

/-- A program goes through in two parts if it goes through as a whole. -/
theorem ofProgram_append_ok (ht : Balanced tokens) (hl : Balanced later)
    (h : ofProgram (tokens ++ later) steps o s = some (.ok v, t)) :
    ∃ w u v' u', ofProgram tokens steps o s = some (.ok w, u) ∧
      ofProgram later steps o { env := u.env } = some (.ok v', u') ∧ t = u'.behind u.output := by
  rw [ofProgram_append ht hl] at h
  rcases hfirst : ofProgram tokens steps o s with _ | ⟨e | w, u⟩ <;> rw [hfirst] at h
  · cases h
  · cases h
  · simp only at h
    split at h
    · obtain ⟨rfl, rfl⟩ : w = v ∧ u = t := by simpa using h
      subst later
      exact ⟨w, u, .empty, { env := u.env }, rfl, rfl, by simp [State.behind]⟩
    · obtain ⟨⟨q, u'⟩, hlater, he⟩ := Option.map_eq_some_iff.mp h
      obtain ⟨rfl, rfl⟩ : q = .ok v ∧ u'.behind u.output = t := by simpa using he
      exact ⟨w, u, v, u', rfl, hlater, rfl⟩

/-- An atom is no form. -/
theorem ofProgram_of_symbol {first : Token} (h : first.kind = .symbol) (rest : List Token) :
    ∃ e, ofProgram (first :: rest) steps o s = some (.error e, s) := by
  refine ⟨.bare (.malformed (.bareTopLevel first.text)), ?_⟩
  simp only [ofProgram, evaluateProgram, operands, operandsFrom, h, complete_cons, evalForms]
  rfl

end FlatLisp
