import FlatLisp.Proofs.Ending
import FlatLisp.Proofs.Environment
import FlatLisp.Proofs.Tree.Agreement
import FlatLisp.Token.Lexer

/-! Programs and their trees end alike. Both are run from states that correspond to each other, and
after every number of steps either both are still running or both have ended in such states. -/
namespace FlatLisp
open Machine Evaluation Coupling Nesting

/-- A forest as an evaluation that runs with a number of steps. -/
abbrev Evaluation.ofForest (forest : List Tree) (steps : Nat) : Evaluation (List Tree) Value :=
  Tree.evalProgram steps .empty forest

/-- The states are equal, but that one has the bodies of its functions as tokens and the other one
has them as trees. -/
structure Corresponds (s : State (List Token)) (t : State (List Tree)) : Prop where
  globals : s.env.globals = t.env.globals
  scopes : s.env.scopes = t.env.scopes
  depth : s.env.depth = t.env.depth
  recursionLimit : s.env.recursionLimit = t.env.recursionLimit
  functions (name : String) : Option.Rel Written (s.env.function? name) (t.env.function? name)
  output : s.output = t.output

namespace Corresponds
variable {s : State (List Token)} {t : State (List Tree)}

theorem lookup (h : Corresponds s t) (name : String) : s.env.lookup name = t.env.lookup name := by
  simp only [Environment.lookup]
  rw [h.scopes, h.globals]

theorem assign (h : Corresponds s t) (name : String) (v : Value) :
    Corresponds { s with env := s.env.assign name v } { t with env := t.env.assign name v } := by
  have hscopes := h.scopes
  cases ht : t.env.scopes with
  | nil =>
    rw [ht] at hscopes
    simp only [Environment.assign, hscopes, ht, h.globals]
    exact { h with globals := rfl, scopes := rfl }
  | cons a rest =>
    rw [ht] at hscopes
    simp only [Environment.assign, hscopes, ht]
    exact { h with scopes := rfl }

theorem define (h : Corresponds s t) {f : UserFunction (List Token)}
    {g : UserFunction (List Tree)} (hfg : Written f g) :
    Corresponds { s with env := s.env.define f } { t with env := t.env.define g } := by
  refine { h with functions := fun name => ?_ }
  simp only [Environment.function?_define, hfg.name]
  split
  · exact .some hfg
  · exact h.functions name

theorem print (h : Corresponds s t) (line : String) :
    Corresponds { s with output := s.output.push line } { t with output := t.output.push line } :=
  { h with output := congrArg (·.push line) h.output }

theorem push (h : Corresponds s t) (rule : CallScope) :
    Corresponds { s with env := { s.env with depth := s.env.depth + 1 }.pushCall rule }
      { t with env := { t.env with depth := t.env.depth + 1 }.pushCall rule } := by
  cases rule with
  | copyCaller =>
    simp only [Environment.pushCall, Environment.pushCopy, Environment.push, h.scopes, h.depth]
    exact { h with scopes := rfl, depth := rfl }
  | parametersOnly =>
    simp only [Environment.pushCall, Environment.pushIsolated, Environment.push, h.scopes, h.depth]
    exact { h with scopes := rfl, depth := rfl }

theorem pop (h : Corresponds s t) :
    Corresponds { s with env := s.env.pop.exit } { t with env := t.env.pop.exit } :=
  { h with
    scopes := congrArg List.tail h.scopes
    depth := congrArg (· - 1) h.depth }

end Corresponds

theorem correspondence_trees : Correspondence .full Written Corresponds where
  lookup _ h := ⟨h.lookup _, fun _ _ => trivial⟩
  assign _ _ h := h.assign _ _
  function? _ h := h.functions _
  define hfg h := h.define hfg
  print _ h := h.print _

theorem calls_trees (lost : Option Fault → Prop) (o : Options) : Calls lost Corresponds o o where
  refused := by
    intro s t f h he
    obtain ⟨hd, rfl⟩ := Environment.enter_eq_error_iff.mp he
    refine .inr (Environment.enter_eq_error_iff.mpr ⟨?_, ?_⟩)
    · rwa [← h.depth, ← h.recursionLimit]
    · rw [h.recursionLimit]
  entered := by
    intro s t e h he
    obtain ⟨hd, rfl⟩ := Environment.enter_eq_ok_iff.mp he
    refine ⟨_, Environment.enter_eq_ok_iff.mpr ⟨?_, rfl⟩, h.push o.callScope⟩
    rwa [← h.depth, ← h.recursionLimit]
  left h := h.pop

/-- Runs on tokens and on trees. No way to end is left out. -/
def onTrees (o : Options) : Coupling .full (Evaluation (List Token)) (Evaluation (List Tree)) :=
  correspondence_trees.coupling (fun _ => False) o o

theorem onTrees_parallel (o : Options) : (onTrees o).Parallel where
  stored_iff := Iff.rfl
  exhausted _ _ _ := .exhausted
  startRound n _ _ h := .guardRound n h
  inCall _ hxy _ _ h := Follows.called (calls_trees _ o) h hxy

/-- The bodies of all functions have balanced parens. -/
def Environment.BalancedBodies (env : Environment (List Token)) : Prop :=
  ∀ name f, env.function? name = some f → Balanced f.body

/-- The function with its body as trees. It has none if the parens of the body do not match. -/
def UserFunction.parsed (f : UserFunction (List Token)) : UserFunction (List Tree) :=
  { f with body := (Tree.parse? f.body).getD [] }

/-- The state with the bodies of all functions as trees. -/
def State.parsed (s : State (List Token)) : State (List Tree) :=
  { s with env := { s.env with functions := s.env.functions.map fun _ f => f.parsed } }

theorem Coupling.written_iff {f : UserFunction (List Token)} {g : UserFunction (List Tree)} :
    Written f g ↔ Balanced f.body ∧ g = f.parsed := by
  constructor
  · intro h
    obtain ⟨hname, hparameters, hbody⟩ := h
    refine ⟨hbody ▸ Tree.balanced_tokensOf g.body, ?_⟩
    simp only [UserFunction.parsed, hname, hparameters, hbody, Tree.parse?_tokensOf,
      Option.getD_some]
  · intro h
    obtain ⟨hb, rfl⟩ := h
    obtain ⟨trees, ht⟩ := Option.isSome_iff_exists.mp (Tree.isSome_parse?_iff.mpr hb)
    refine ⟨rfl, rfl, ?_⟩
    simp only [UserFunction.parsed, ht, Option.getD_some, Tree.tokensOf_of_parse? ht]

theorem Coupling.eq_map_parsed {x : Option (UserFunction (List Token))}
    {y : Option (UserFunction (List Tree))} (h : Option.Rel Written x y) :
    y = x.map UserFunction.parsed ∧ ∀ f ∈ x, Balanced f.body := by
  cases h with
  | none => exact ⟨rfl, by simp⟩
  | some hfg =>
    obtain ⟨hb, rfl⟩ := written_iff.mp hfg
    refine ⟨rfl, ?_⟩
    rintro _ ⟨⟩
    exact hb

theorem State.function?_parsed (s : State (List Token)) (name : String) :
    s.parsed.env.function? name = (s.env.function? name).map UserFunction.parsed :=
  Std.ExtTreeMap.getElem?_map

theorem Corresponds.balancedBodies {s : State (List Token)} {t : State (List Tree)}
    (h : Corresponds s t) : s.env.BalancedBodies := by
  intro name f hf
  exact (eq_map_parsed (h.functions name)).2 f hf

/-- Tokens are those of one forest at most, so no other state corresponds than the parsed one. -/
theorem Corresponds.eq_parsed {s : State (List Token)} {t : State (List Tree)}
    (h : Corresponds s t) : t = s.parsed := by
  have hfunctions : t.env.functions = s.parsed.env.functions := by
    apply Std.ExtTreeMap.ext_getElem?
    intro name
    exact (eq_map_parsed (h.functions name)).1.trans (s.function?_parsed name).symm
  obtain ⟨⟨globals, scopes, functions, depth, recursionLimit⟩, output⟩ := t
  obtain ⟨rfl, rfl, rfl, rfl, -, rfl⟩ := h
  obtain rfl : functions = _ := hfunctions
  rfl

theorem corresponds_parsed {s : State (List Token)} (hs : s.env.BalancedBodies) :
    Corresponds s s.parsed := by
  refine ⟨rfl, rfl, rfl, rfl, fun name => ?_, rfl⟩
  rw [s.function?_parsed]
  cases hf : s.env.function? name with
  | none => exact .none
  | some f => exact .some (written_iff.mpr ⟨hs name f hf, rfl⟩)

theorem eq_of_follows_trees {x : Option (Except Error Value × State (List Token))}
    {y : Option (Except Error Value × State (List Tree))}
    (h : Follows (fun _ => False) Corresponds (Same fun _ => True) x y) :
    y = x.map (Prod.map id State.parsed) ∧ ∀ r ∈ x, r.2.env.BalancedBodies := by
  cases h with
  | ok hr hs =>
    obtain ⟨rfl, -⟩ := hr
    obtain rfl := hs.eq_parsed
    refine ⟨rfl, ?_⟩
    rintro _ ⟨⟩
    exact hs.balancedBodies
  | error hs =>
    obtain rfl := hs.eq_parsed
    refine ⟨rfl, ?_⟩
    rintro _ ⟨⟩
    exact hs.balancedBodies
  | exhausted => exact ⟨rfl, by simp⟩
  | short hx => exact hx.elim
  | lost hx => exact hx.elim

/-- After every number of steps, the evaluation on trees is where the one on tokens is. -/
theorem ofForest_parsed {tokens : List Token} {forest : List Tree}
    (hf : Tree.parse? tokens = some forest) {s : State (List Token)}
    (hs : s.env.BalancedBodies) (o : Options) (steps : Nat) :
    ofForest forest steps o s.parsed =
        (ofProgram tokens steps o s).map (Prod.map id State.parsed) ∧
      ∀ r ∈ ofProgram tokens steps o s, r.2.env.BalancedBodies := by
  obtain rfl := Tree.tokensOf_of_parse? hf
  apply eq_of_follows_trees
  exact (onTrees_parallel o).rel_evaluateProgram steps forest s _ (corresponds_parsed hs)

/-- A program ends on tokens if and only if it ends on trees, and it ends there with the same
outcome, the same output and the same environment, with the bodies of functions as trees. -/
theorem exists_forest_endsIn {tokens : List Token} (ht : Balanced tokens)
    {s : State (List Token)} (hs : s.env.BalancedBodies) (o : Options) :
    ∃ forest, Tree.parse? tokens = some forest ∧
      (∀ r t, EndsIn (ofProgram tokens) o s (r, t) →
        t.env.BalancedBodies ∧ EndsIn (ofForest forest) o s.parsed (r, t.parsed)) ∧
      ∀ r u, EndsIn (ofForest forest) o s.parsed (r, u) →
        ∃ t, EndsIn (ofProgram tokens) o s (r, t) ∧ u = t.parsed := by
  obtain ⟨forest, hf⟩ := Option.isSome_iff_exists.mp (Tree.isSome_parse?_iff.mpr ht)
  refine ⟨forest, hf, ?_, ?_⟩
  · intro r t h
    obtain ⟨n, hn⟩ := h
    have hbodies := (ofForest_parsed hf hs o n).2 _ (hn n (Nat.le_refl n))
    refine ⟨hbodies, n, ?_⟩
    intro steps hsteps
    rw [(ofForest_parsed hf hs o steps).1, hn steps hsteps]
    rfl
  · intro r u h
    obtain ⟨n, hn⟩ := h
    have hmap := (ofForest_parsed hf hs o n).1
    rw [hn n (Nat.le_refl n)] at hmap
    obtain ⟨⟨q, t⟩, hx, hq⟩ := Option.map_eq_some_iff.mp hmap.symm
    obtain ⟨rfl, rfl⟩ : q = r ∧ t.parsed = u := by simpa using hq
    exact ⟨t, endsIn_ofProgram_iff.mpr ⟨n, hx⟩, rfl⟩

/-- A program that defines a function by means of a stored one and calls it within a block. -/
def quadrupling : List Token :=
  Lexer.cut "(defun quadruple (n) (twice (twice n))) ((setq i (quadruple 10)) (+ i 2))".toList

def withTwice : State (List Token) where
  env := Environment.define {} ⟨"twice", ["n"], Lexer.cut "(* n 2)".toList⟩

theorem balancedBodies_withTwice : withTwice.env.BalancedBodies := by
  intro name f hf
  rw [withTwice, Environment.function?_define] at hf
  split at hf
  · obtain rfl := Option.some.inj hf
    decide +kernel
  · simp [Environment.function?] at hf

theorem endsIn_quadrupling_on_trees :
    ∃ forest t, Tree.parse? quadrupling = some forest ∧
      EndsIn (ofProgram quadrupling) {} withTwice (.ok (.integer 42), t) ∧
      EndsIn (ofForest forest) {} withTwice.parsed (.ok (.integer 42), t.parsed) := by
  have hv : (ofProgram quadrupling 20 {} withTwice).bind (·.1.toOption) = some (.integer 42) := by
    decide +kernel
  obtain ⟨t, h⟩ := endsIn_of_toOption hv
  obtain ⟨forest, hf, htrees, -⟩ :=
    exists_forest_endsIn (show Balanced quadrupling by decide +kernel) balancedBodies_withTwice {}
  exact ⟨forest, t, hf, h, (htrees _ _ h).2⟩

end FlatLisp
