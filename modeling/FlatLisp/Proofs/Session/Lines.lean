import FlatLisp.Proofs.Session.Tidy

/-! The lines of a session. No value has a blank or a paren in it, so every printed line is one
word, and an error is told in one more line. -/
namespace FlatLisp
open Machine Eval Lexer Nesting Evaluation

/-- All values that the environment has for variables, in whatever scope. -/
def Environment.Solid (env : Environment (List Token)) : Prop :=
  ∀ a ∈ env.globals :: env.scopes, ∀ name v, a.get? name = some v → v.Solid

theorem Environment.Tidy.solid {env : Environment (List Token)} (h : env.Tidy) : env.Solid := by
  have hglobals := fun name v hv => (h.globals name v hv).1
  have hscopes := fun a ha name v hv => (h.scope a ha name v hv).1
  exact List.forall_mem_cons.mpr ⟨hglobals, hscopes⟩

/-- A value that a builtin may be given at a moment: what a form comes to, what a symbol stands for,
the operands of an operator, and what is about to be assigned or printed. -/
inductive Moment.Passes (o : Options) (m : Moment (List Token)) : Value → Prop
  | form {form : List Token} {steps : Nat} {t : State (List Token)} {v : Value} :
      m.event = .form form → ofNested form steps o m.state = some (.ok v, t) → Passes o m v
  | symbol {name : String} :
      m.event = .lookup name → Passes o m ((m.state.env.lookup name).getD (.text name))
  | operand {form rest : List Token} {head : Token} {xs : List (List Token)} {op : Operator}
      {steps : Nat} {args : List Value} {t : State (List Token)} {v : Value} :
      m.event = .form form → enclosed? form = some (head :: rest) → head.kind = .symbol →
        Builtin.ofSymbol? head.text = some (.operator op) → splitOperands rest = .ok xs →
        ofOperands xs steps o m.state = some (.ok args, t) → v ∈ args → Passes o m v
  | assigned {name : String} {v : Value} : m.event = .assign name v → Passes o m v
  | printed {line : String} : m.event = .print line → Passes o m (.text line)

/-- What holds of the results of a tidy evaluation, holds where nobody watches it. -/
theorem Tidies.of_rel {α : Type} {P Q : α → Prop} {x : Watched (List Token) α}
    {y : Evaluation (List Token) α} {o : Options} {s t : State (List Token)} {a : α}
    (h : Tidies P x) (hrel : unwatching.Rel (Same Q) x y) (hs : s.Tidy)
    (hy : y o s = some (.ok a, t)) : P a := by
  have hrun := congrFun (congrFun (unwatched_eq hrel []) o) s
  exact ((h o [] s hs).2 _ t (hrun.trans hy)).ok a rfl

theorem solid_of_ofNested {form : List Token} (hform : IsForm form)
    (ht : ∀ t ∈ form, t.WellSpelled) {steps : Nat} {o : Options} {s t : State (List Token)}
    (hs : s.Tidy) {v : Value} (h : ofNested form steps o s = some (.ok v, t)) : v.Solid := by
  have hvalue := tidying.forms_evalForm steps form form hform (.self ht)
  exact Tidies.of_rel hvalue (unwatching_uniform.rel_evalForm steps trivial) hs h

theorem solid_of_ofOperands {tokens : List Token} (ht : ∀ t ∈ tokens, t.WellSpelled)
    {xs : List (List Token)} (hx : splitOperands tokens = .ok xs) {steps : Nat} {o : Options}
    {s t : State (List Token)} (hs : s.Tidy) {args : List Value}
    (h : ofOperands xs steps o s = some (.ok args, t)) : ∀ v ∈ args, v.Solid := by
  have hpart : Lexicon.spelled.Part tokens tokens := .self ht
  have hargs := (tidying.forms_evalForm steps).holds_evalOperands (hpart.operands_of_split hx)
  have hoperands : unwatching.Operands (evalForm steps) (evalForm steps) xs :=
    unwatching_uniform.operands steps fun _ _ => trivial
  exact Tidies.of_rel hargs hoperands.rel_evalOperands hs h

theorem Moment.Tidy.solid {m : Moment (List Token)} (h : m.Tidy) {o : Options} {v : Value}
    (hv : m.Passes o v) : v.Solid := by
  have hevent := h.event
  cases hv with
  | form hf hrun =>
    rw [hf] at hevent
    exact solid_of_ofNested hevent.1 hevent.2 h.state hrun
  | @symbol name hf =>
    rw [hf] at hevent
    cases hv : m.state.env.lookup name with
    | none => exact Value.solid_text hevent.chars
    | some w => exact (h.state.env.lookup hv).1
  | @operand form rest head xs op steps args t v hf he _ _ hx hargs hmem =>
    rw [hf] at hevent
    obtain ⟨first, last, rfl, -, -⟩ := enclosed?_eq_some_iff.mp he
    have hrest : ∀ t ∈ rest, t.WellSpelled := fun t ht => hevent.2 t (by simp [ht])
    exact solid_of_ofOperands hrest hx h.state hargs v hmem
  | assigned he =>
    rw [he] at hevent
    exact hevent.1
  | printed he =>
    rw [he] at hevent
    exact hevent

/-- The line that tells an error says what kind it is. -/
theorem Error.Tidy.line {e : Error} (h : e.Tidy) :
    ("Error: " ++ e.kind.name).toList <+: s!"Error: {e.message}".toList ∧
      OneLine s!"Error: {e.message}" := by
  obtain ⟨⟨rest, hrest⟩, hline⟩ := h.message
  have hlabel : s!"Error: {e.message}" = "Error: " ++ e.message := rfl
  rw [hlabel]
  refine ⟨⟨rest, ?_⟩, oneLine_append.mpr ⟨oneLine_ofList (by decide), hline⟩⟩
  rw [String.toList_append, String.toList_append, List.append_assoc, hrest]

namespace Session

theorem run_of_execute {s t : Session} {steps : Nat} {source : String} {x : Execution}
    (h : s.execute steps source = some (x, t)) :
    ∃ further, s.run steps source = some (x.output.toList ++ further, t) ∧
      (∀ v, x.outcome = .ok v → further = []) ∧
      ∀ e, x.outcome = .error e → further = [s!"Error: {e.message}"] := by
  cases hr : x.outcome with
  | ok v => exact ⟨[], by simp [run, h, Execution.lines, hr], by simp, nofun⟩
  | error e =>
    refine ⟨[s!"Error: {e.message}"], by simp [run, h, Execution.lines, hr], nofun, ?_⟩
    rintro _ ⟨⟩
    rfl

/-- In every session, no text that a variable holds, that a builtin is given or that an execution
returns has a blank or a paren in it. So a printed line has no blank at all, and `run` gives these
lines and, if and only if there is an error, one more: it starts with the kind of the error, and
spaces are the only blanks in it. -/
theorem run_lines {s : Session} (hs : s.Reachable) :
    s.env.Solid ∧ ∀ steps source,
      (∀ m ∈ (s.watch steps source).1, m.state.env.Solid ∧
        ∀ v, m.Passes s.config.options v → v.Solid) ∧
      ∀ x t, s.execute steps source = some (x, t) → t.env.Solid ∧
        (∀ v, x.outcome = .ok v → v.Solid) ∧ (∀ line ∈ x.output, Unbroken line) ∧
        ∃ further, s.run steps source = some (x.output.toList ++ further, t) ∧
          further.length ≤ 1 ∧ (further ≠ [] ↔ ∃ e, x.outcome = .error e) ∧
          ∀ line ∈ further, ∃ e, x.outcome = .error e ∧
            ("Error: " ++ e.kind.name).toList <+: line.toList ∧ OneLine line := by
  refine ⟨hs.tidy.solid, fun steps source => ?_⟩
  obtain ⟨hseen, hend⟩ := tidy_of_watch hs.tidy steps source
  refine ⟨fun m hm => ⟨(hseen m hm).state.env.solid, fun v hv => (hseen m hm).solid hv⟩, ?_⟩
  intro x t hx
  obtain ⟨hsolid, htidy⟩ := hend x t ((s.snd_watch steps source).trans hx)
  obtain ⟨further, hrun, hok, herror⟩ := run_of_execute hx
  refine ⟨hsolid.solid, htidy.value, htidy.printed, further, hrun, ?_⟩
  cases hr : x.outcome with
  | ok v =>
    obtain rfl := hok v hr
    simp
  | error e =>
    obtain rfl := herror e hr
    refine ⟨Nat.le_refl 1, by simp, ?_⟩
    intro line hline
    obtain rfl := List.mem_singleton.mp hline
    exact ⟨e, rfl, (htidy.error e hr).line⟩

/-- A text is assigned and printed, and then a form of more than one line fails. -/
def greeting : String := "(setq name héllo) (print name)\n(/ (+ 1 2)\n\t0)"

theorem run_lines_greeting :
    (∃ m ∈ ((start {}).watch 20 greeting).1, m.Passes {} (.text "héllo") ∧
      (Value.text "héllo").Solid) ∧
    ∃ x t line, (start {}).execute 20 greeting = some (x, t) ∧
      (start {}).run 20 greeting = some (["héllo", line], t) ∧ Unbroken "héllo" ∧
      "Error: DivisionByZero".toList <+: line.toList ∧ OneLine line := by
  have hassigned : (((start {}).watch 20 greeting).1.any fun m =>
      match m.event with
      | .assign _ v => v = .text "héllo"
      | _ => false) = true := by
    decide +kernel
  have hend : (((start {}).execute 20 greeting).map fun p =>
      (p.1.output, faultOf? p.1.outcome)) = some (#["héllo"], some .divisionByZero) := by
    decide +kernel
  obtain ⟨-, hexecution⟩ := run_lines (.start {})
  obtain ⟨hseen, hlast⟩ := hexecution 20 greeting
  refine ⟨?_, ?_⟩
  · obtain ⟨m, hm, he⟩ := List.any_eq_true.mp hassigned
    split at he
    · rename_i name v hv
      obtain rfl : v = .text "héllo" := by simpa using he
      have hpasses : m.Passes {} (.text "héllo") := .assigned hv
      exact ⟨m, hm, hpasses, (hseen m hm).2 _ hpasses⟩
    · cases he
  · obtain ⟨⟨⟨output, outcome⟩, t⟩, hx, ht⟩ := Option.map_eq_some_iff.mp hend
    obtain ⟨rfl, hfault⟩ : output = #["héllo"] ∧ faultOf? outcome = some .divisionByZero :=
      Prod.mk.inj ht
    obtain ⟨-, -, hprinted, further, hrun, hlength, hne, hline⟩ := hlast _ t hx
    cases outcome with
    | ok v => cases hfault
    | error e =>
      obtain ⟨line, rest, rfl⟩ := List.exists_cons_of_ne_nil (hne.mpr ⟨e, rfl⟩)
      obtain rfl : rest = [] := List.length_eq_zero_iff.mp (Nat.le_zero.mp (by simpa using hlength))
      obtain ⟨f, hf, hprefix, honeLine⟩ := hline line (by simp)
      obtain rfl := Except.error.inj hf
      have hkind : e.kind.name = "DivisionByZero" := by
        rw [Error.kind, Option.some.inj hfault]
        rfl
      rw [hkind] at hprefix
      exact ⟨_, t, line, hx, hrun, hprinted _ (by simp), hprefix, honeLine⟩

end Session
end FlatLisp
