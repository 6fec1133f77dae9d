import FlatLisp.Proofs.Call
import FlatLisp.Proofs.TwoLevel.Agreement

/-! Calls that begin with their parameters only. The scopes around such a call make no difference to
it, and none to any call within it. -/
namespace FlatLisp
open Machine Eval Nesting Evaluation

variable {β α : Type}

/-- The states differ in nothing but their scopes. -/
structure AlikeOutsideScopes (s t : State β) : Prop where
  globals : t.env.globals = s.env.globals
  functions : t.env.functions = s.env.functions
  depth : t.env.depth = s.env.depth
  recursionLimit : t.env.recursionLimit = s.env.recursionLimit
  output : t.output = s.output

def State.withScopes (scopes : List Scope) (s : State β) : State β :=
  { s with env := { s.env with scopes } }

/-- The state in which the call is over whose body ends in this state. -/
def State.left (s : State β) : State β := { s with env := s.env.pop.exit }

namespace AlikeOutsideScopes
variable {s t : State β}

theorem symm (h : AlikeOutsideScopes s t) : AlikeOutsideScopes t s where
  globals := h.globals.symm
  functions := h.functions.symm
  depth := h.depth.symm
  recursionLimit := h.recursionLimit.symm
  output := h.output.symm

theorem withScopes (s : State β) (scopes : List Scope) :
    AlikeOutsideScopes s (s.withScopes scopes) := ⟨rfl, rfl, rfl, rfl, rfl⟩

theorem eq_withScopes (h : AlikeOutsideScopes s t) : t = s.withScopes t.env.scopes := by
  simp only [State.withScopes, ← h.globals, ← h.functions, ← h.depth, ← h.recursionLimit,
    ← h.output]

/-- What is left when a call is over depends on two levels and on the scopes around it. -/
theorem of_twoLevel_eq (h : s.twoLevel = t.twoLevel) :
    AlikeOutsideScopes s.left t.left := by
  simp only [State.twoLevel, TwoLevelState.mk.injEq] at h
  obtain ⟨hglobals, -, hfunctions, hdepth, hlimit, houtput⟩ := h
  exact ⟨hglobals.symm, hfunctions.symm, congrArg (· - 1) hdepth.symm, hlimit.symm, houtput.symm⟩

end AlikeOutsideScopes

/-- The state in which the body of a call begins that is admitted, with these scopes around it. -/
def State.isolated (s : State β) (scopes : List Scope) : State β where
  env := { s.env with
    scopes := { isolated := true } :: scopes
    depth := s.env.depth + 1 }
  output := s.output

theorem called_of_enter {o : Options} {s : State β} {e : Environment β}
    (he : s.env.enter = .ok e) (x : Evaluation β α) :
    called x o s =
      (x o { s with env := e.pushCall o.callScope }).map (Prod.map id State.left) := by
  simp only [called, he]
  cases x o { s with env := e.pushCall o.callScope } with
  | none => rfl
  | some p => rfl

/-- A call that is admitted, up to its end. -/
theorem called_of_lt {o : Options} (ho : o.callScope = .parametersOnly) (x : Evaluation β α)
    {s : State β} (hd : s.env.depth < s.env.recursionLimit) :
    called x o s = (x o (s.isolated s.env.scopes)).map (Prod.map id State.left) := by
  rw [called_of_enter (Environment.enter_eq_ok_iff.mpr ⟨hd, rfl⟩), ho]
  rfl

/-- Bodies that end alike on two levels leave states that differ only in the scopes around. -/
theorem map_left_withScopes {p q : Option (Except Error α × State β)} {scopes : List Scope}
    (h : p.map (Prod.map id State.twoLevel) = q.map (Prod.map id State.twoLevel))
    (hq : ∀ r ∈ q, r.2.env.scopes.tail = scopes) :
    q.map (Prod.map id State.left) =
      (p.map (Prod.map id State.left)).map (Prod.map id (·.withScopes scopes)) := by
  match p, q with
  | none, none => rfl
  | some (r, t), some (r', u) =>
    obtain ⟨rfl, htu⟩ : r = r' ∧ t.twoLevel = u.twoLevel := by simpa using h
    have hu : u.left.env.scopes = scopes := hq _ rfl
    have hleft : u.left = t.left.withScopes scopes :=
      hu ▸ (AlikeOutsideScopes.of_twoLevel_eq htu).eq_withScopes
    exact congrArg (fun v => some (r, v)) hleft

/-- From two states that differ in the scopes around, the body takes the same way as it takes on two
levels, where they do not differ. -/
theorem called_withScopes {P : α → Prop} {o : Options} (ho : o.callScope = .parametersOnly)
    {x : Evaluation β α} {y : TwoLevelEvaluation β α} (h : RunsOnTwoLevels (Same P) x y)
    (s : State β) (scopes : List Scope) :
    called x o (s.withScopes scopes) =
      (called x o s).map (Prod.map id (·.withScopes scopes)) := by
  by_cases hd : s.env.depth < s.env.recursionLimit
  · have hbody := fun around =>
      eq_of_follows_twoLevel (h o (s.isolated around) (.of_isolated rfl around))
    obtain ⟨here, -⟩ := hbody s.env.scopes
    obtain ⟨there, houter⟩ := hbody scopes
    rw [called_of_lt ho x hd, called_of_lt ho x (s := s.withScopes scopes) hd]
    exact map_left_withScopes (here.symm.trans there) houter
  · have hl : s.env.recursionLimit ≤ s.env.depth := Nat.not_lt.mp hd
    simp only [called, Environment.enter, State.withScopes, hl, if_true]
    rfl

section
variable {o : Options} {s s' : State (List Token)} {form : List Token} {xs : List (List Token)}
  {f : UserFunction (List Token)} {args : List Value}

theorem ofInvoke_withScopes (ho : o.callScope = .parametersOnly) (f : UserFunction (List Token))
    (args : List Value) (steps : Nat) (s : State (List Token)) (scopes : List Scope) :
    ofInvoke f args steps o (s.withScopes scopes) =
      (ofInvoke f args steps o s).map (Prod.map id (·.withScopes scopes)) := by
  simp only [ofInvoke, invoke]
  split
  · cases splitOperands f.body with
    | error g => rfl
    | ok body =>
      have hbody := onTwoLevels_uniform.rel_callBody steps f.parameters args (fun _ _ => trivial)
        (fun _ _ => trivial) fun x (_ : x ∈ body) => trivial
      exact called_withScopes ho hbody s scopes
  · rfl

/-- A call is its rest where the operands have values and no effects. -/
theorem ofNested_of_arguments (hcall : IsCall s.env form f xs) {steps : Nat}
    (hargs : ofOperands xs steps o s = some (.ok args, s)) :
    ofNested form (steps + 1) o s = (ofInvoke f args steps o s).map
      (Prod.map (Except.mapError (·.locate form)) id) := by
  rw [evalForm_of_isCall hcall, located_eq_map]
  simp only [Bind.bind, hargs]

theorem IsCall.of_alike (h : AlikeOutsideScopes s s') (hcall : IsCall s.env form f xs) :
    IsCall s'.env form f xs := by
  obtain ⟨head, rest, he, hk, hb, hf, hs⟩ := hcall
  refine ⟨head, rest, he, hk, hb, ?_, hs⟩
  simpa only [Environment.function?, h.functions] using hf

/-- One of two alike calls ends as the other one does. -/
theorem endsIn_call_of_alike (ho : o.callScope = .parametersOnly) (h : AlikeOutsideScopes s s')
    (hcall : IsCall s.env form f xs) (hargs : EndsIn (ofOperands xs) o s (.ok args, s))
    (hargs' : EndsIn (ofOperands xs) o s' (.ok args, s')) {r : Except Error Value}
    {t : State (List Token)} (hends : EndsIn (ofNested form) o s (r, t)) :
    t.env.scopes = s.env.scopes ∧
      ∃ t', EndsIn (ofNested form) o s' (r, t') ∧ AlikeOutsideScopes t t' := by
  obtain ⟨n, hn⟩ := hargs
  obtain ⟨n', hn'⟩ := hargs'
  obtain ⟨k, hk⟩ := hends
  let steps := max k (max n n')
  have hrun := hk (steps + 1) (by omega)
  rw [ofNested_of_arguments hcall (hn steps (by omega))] at hrun
  obtain ⟨⟨q, t⟩, hinvoke, heq⟩ := Option.map_eq_some_iff.mp hrun
  obtain ⟨rfl, rfl⟩ : q.mapError (·.locate form) = r ∧ t = _ := by simpa using heq
  have hscopes : t.env.scopes = s.env.scopes := by
    rw [(keepsVariables_of_invoke hinvoke).env]
  refine ⟨hscopes, t.withScopes s'.env.scopes, endsIn_ofNested_iff.mpr ⟨steps + 1, ?_⟩,
    .withScopes t _⟩
  rw [ofNested_of_arguments (hcall.of_alike h) (hn' steps (by omega)), h.eq_withScopes,
    ofInvoke_withScopes ho, hinvoke]
  rfl

/-- Where the scope of a call begins with the parameters only, a call with the same arguments ends
alike in two states that differ in their scopes, or in neither of them. It prints the same lines and
defines the same functions, and each state keeps its scopes. -/
theorem calls_alike_outside_scopes (ho : o.callScope = .parametersOnly)
    (h : AlikeOutsideScopes s s') (hcall : IsCall s.env form f xs)
    (hargs : EndsIn (ofOperands xs) o s (.ok args, s))
    (hargs' : EndsIn (ofOperands xs) o s' (.ok args, s')) (r : Except Error Value) :
    (∀ t, EndsIn (ofNested form) o s (r, t) →
      t.env.scopes = s.env.scopes ∧
        ∃ t', EndsIn (ofNested form) o s' (r, t') ∧ AlikeOutsideScopes t t') ∧
    ∀ t', EndsIn (ofNested form) o s' (r, t') →
      t'.env.scopes = s'.env.scopes ∧
        ∃ t, EndsIn (ofNested form) o s (r, t) ∧ AlikeOutsideScopes t t' := by
  refine ⟨fun t hends => endsIn_call_of_alike ho h hcall hargs hargs' hends, ?_⟩
  intro t' hends
  obtain ⟨hscopes, t, ht, halike⟩ :=
    endsIn_call_of_alike ho h.symm (hcall.of_alike h) hargs' hargs hends
  exact ⟨hscopes, t, ht, halike.symm⟩

end

/-- A function that tries to read variables of its caller. -/
def prying : UserFunction (List Token) :=
  ⟨"pry", ["b"], Lexer.cut "(print b) (print k) (secret)".toList⟩

/-- A function that tries the same, and calls another one. -/
def relaying : UserFunction (List Token) :=
  ⟨"relay", ["k"], Lexer.cut "(print secret) (pry (+ k 1))".toList⟩

/-- The state within a call in these scopes, with the functions at hand. -/
def among (scopes : List Scope) : State (List Token) where
  env := Environment.define (Environment.define { scopes, depth := 1 } prying) relaying

/-- The scopes of a caller with a secret, and of another one that has none of its own. -/
def withSecret : List Scope :=
  [(Scope.define {} "n" (.integer 1)).define "secret" (.integer 42)]

def withoutSecret : List Scope :=
  [{ Scope.define {} "n" (.integer 1) with isolated := true }, Scope.define {} "k" (.integer 7)]

def relay : List Token := Lexer.cut "(relay n)".toList

theorem endsIn_ofOperands_name {o : Options} {s : State (List Token)} {name : String} {v : Value}
    (h : s.env.lookup name = some v) :
    EndsIn (ofOperands [[⟨.symbol, name⟩]]) o s (.ok [v], s) := by
  refine ⟨0, fun steps _ => ?_⟩
  change some (Except.ok [(s.env.lookup name).getD (.text name)], s) = _
  rw [h]
  rfl

theorem relay_alike_with_and_without_secret :
    ∃ e t t', EndsIn (ofNested relay) ⟨.parametersOnly, none⟩ (among withSecret) (.error e, t) ∧
      EndsIn (ofNested relay) ⟨.parametersOnly, none⟩ (among withoutSecret) (.error e, t') ∧
      e.fault = .unknownCommand "secret" ∧ t.output = #["secret", "2", "k"] ∧
      t.env.scopes = withSecret ∧ AlikeOutsideScopes t t' := by
  have hrun : (ofNested relay 20 ⟨.parametersOnly, none⟩ (among withSecret)).bind (fun p =>
      (faultOf? p.1).map fun f => (f, p.2.output)) =
        some (.unknownCommand "secret", #["secret", "2", "k"]) := by
    decide +kernel
  have hcall : IsCall (among withSecret).env relay relaying [[⟨.symbol, "n"⟩]] :=
    ⟨⟨.symbol, "relay"⟩, [⟨.symbol, "n"⟩], by decide +kernel, rfl, by decide +kernel,
      by decide +kernel, by decide +kernel⟩
  have halike : AlikeOutsideScopes (among withSecret) (among withoutSecret) :=
    ⟨rfl, rfl, rfl, rfl, rfl⟩
  have hargs : (among withSecret).env.lookup "n" = some (.integer 1) := by decide +kernel
  have hargs' : (among withoutSecret).env.lookup "n" = some (.integer 1) := by decide +kernel
  obtain ⟨⟨r, t⟩, hr, he⟩ := Option.bind_eq_some_iff.mp hrun
  have hends : EndsIn (ofNested relay) ⟨.parametersOnly, none⟩ (among withSecret) (r, t) :=
    endsIn_ofNested_iff.mpr ⟨20, hr⟩
  obtain ⟨hscopes, t', ht', hafter⟩ := (calls_alike_outside_scopes rfl halike hcall
    (endsIn_ofOperands_name hargs) (endsIn_ofOperands_name hargs') r).1 t hends
  cases r with
  | ok v => cases he
  | error e =>
    obtain ⟨hf, hout⟩ : e.fault = .unknownCommand "secret" ∧
        t.output = #["secret", "2", "k"] := by
      simpa [faultOf?] using he
    exact ⟨e, t, t', hends, ht', hf, hout, hscopes, hafter⟩

end FlatLisp
