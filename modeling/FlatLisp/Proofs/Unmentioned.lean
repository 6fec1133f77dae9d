import FlatLisp.Proofs.Watch

/-! Names that nothing mentions. A variable of such a name is neither read nor written, though the
scope of a call may copy it along with the other variables of the caller. -/
namespace FlatLisp
open Machine Eval Nesting Evaluation

variable {β : Type} {name other : String} {v w : Value}

/-- No token is the name. -/
def Avoids (name : String) (tokens : List Token) : Prop := ∀ t ∈ tokens, t.text ≠ name

instance (name : String) (tokens : List Token) : Decidable (Avoids name tokens) :=
  inferInstanceAs (Decidable (∀ t ∈ tokens, t.text ≠ name))

theorem Avoids.of_infix {xs ys : List Token} (h : Avoids name ys) (hx : xs <:+: ys) :
    Avoids name xs := fun t ht => h t (hx.subset ht)

/-- The name is no parameter, and no token of the body. -/
structure UserFunction.Avoids (name : String) (f : UserFunction (List Token)) : Prop where
  parameters : name ∉ f.parameters
  body : FlatLisp.Avoids name f.body

theorem avoids_of_defines {xs : List (List Token)} {f : UserFunction (List Token)}
    (h : ∀ x ∈ xs, Avoids name x) (hd : Defines xs f) : f.Avoids name := by
  obtain ⟨target, parameterList, body, rfl, -, -, -, hp, -, hf⟩ := hd
  obtain ⟨-, htokens⟩ := nodup_of_parametersOf hp
  constructor
  · intro hn
    obtain ⟨t, ht, -, heq⟩ := htokens name hn
    exact h parameterList (by simp) t ht heq
  · intro t ht
    rw [hf] at ht
    obtain ⟨x, hx, htx⟩ := List.mem_flatten.mp ht
    exact h x (by simp [hx]) t htx

/-- Which scopes have a binding of the name put on top of what they bind. As in an environment, the
innermost scope comes first. -/
structure Marks where
  globals : Bool
  scopes : List Bool

namespace Marks

/-- The mark of the innermost one of `n` scopes, or of the globals where there is none. -/
def innermost : Nat → Marks
  | 0 => ⟨true, []⟩
  | n + 1 => ⟨false, true :: List.replicate n false⟩

theorem length_innermost (n : Nat) : (innermost n).scopes.length = n := by
  cases n with
  | zero => rfl
  | succ n => simp [innermost]

/-- A copied scope has the mark of the scope that it is a copy of. -/
def call (marks : Marks) (rule : CallScope) : Marks :=
  match rule with
  | .copyCaller => { marks with scopes := marks.scopes.head?.getD false :: marks.scopes }
  | .parametersOnly => { marks with scopes := false :: marks.scopes }

end Marks

namespace Scope

def marked (name : String) (v : Value) (mark : Bool) (a : Scope) : Scope :=
  if mark then a.define name v else a

theorem get?_marked (h : other ≠ name) (mark : Bool) (a : Scope) :
    (a.marked name v mark).get? other = a.get? other := by
  cases mark with
  | false => rfl
  | true => simp [marked, get?_define, h.symm]

theorem isolated_marked (mark : Bool) (a : Scope) :
    (a.marked name v mark).isolated = a.isolated := by
  cases mark <;> rfl

theorem define_marked (h : other ≠ name) (mark : Bool) (a : Scope) :
    (a.marked name v mark).define other w = (a.define other w).marked name v mark := by
  cases mark with
  | false => rfl
  | true =>
    simp only [marked, define, if_true]
    congr 1
    refine Std.ExtTreeMap.ext_getElem? fun key => ?_
    simp only [Std.ExtTreeMap.getElem?_insert, Std.LawfulEqCmp.compare_eq_iff_eq]
    by_cases hkey : other = key
    · subst hkey
      simp [h.symm]
    · simp [hkey]

end Scope

namespace Environment
variable {marks : Marks}

/-- The environment with the name bound in the marked scopes. -/
def marked (name : String) (v : Value) (marks : Marks) (env : Environment β) : Environment β :=
  { env with
    globals := env.globals.marked name v marks.globals
    scopes := List.zipWith (Scope.marked name v) marks.scopes env.scopes }

theorem lookupIn_marked (h : other ≠ name) {marks : List Bool} {scopes : List Scope}
    (hl : marks.length = scopes.length) :
    lookupIn other (List.zipWith (Scope.marked name v) marks scopes) = lookupIn other scopes := by
  induction scopes generalizing marks with
  | nil =>
    rw [List.length_eq_zero_iff.mp hl]
    rfl
  | cons a rest ih =>
    obtain ⟨mark, marks, rfl⟩ := List.exists_cons_of_length_eq_add_one hl
    have hrest := ih (Nat.succ.inj hl)
    simp only [List.zipWith_cons_cons, lookupIn, Scope.get?_marked h, Scope.isolated_marked, hrest]

variable (env : Environment β)

theorem lookup_marked (h : other ≠ name) (hl : marks.scopes.length = env.scopes.length) :
    (env.marked name v marks).lookup other = env.lookup other := by
  simp only [lookup, marked, lookupIn_marked h hl, Scope.get?_marked h]

theorem assign_marked (h : other ≠ name) (hl : marks.scopes.length = env.scopes.length) :
    (env.marked name v marks).assign other w = (env.assign other w).marked name v marks := by
  obtain ⟨globals, marks⟩ := marks
  cases hs : env.scopes with
  | nil => simp [assign, marked, hs, Scope.define_marked h]
  | cons a rest =>
    obtain ⟨mark, marks, rfl⟩ := List.exists_cons_of_length_eq_add_one (hs ▸ hl)
    simp [assign, marked, hs, Scope.define_marked h]

theorem pushCall_marked (rule : CallScope) (hl : marks.scopes.length = env.scopes.length) :
    (env.marked name v marks).pushCall rule =
      (env.pushCall rule).marked name v (marks.call rule) := by
  obtain ⟨globals, marks⟩ := marks
  cases rule with
  | parametersOnly => rfl
  | copyCaller =>
    cases hs : env.scopes with
    | nil =>
      obtain rfl : marks = [] := List.length_eq_zero_iff.mp (by simpa [hs] using hl)
      simp [pushCall, pushCopy, push, marked, Marks.call, hs, Scope.marked]
    | cons a rest =>
      obtain ⟨mark, marks, rfl⟩ := List.exists_cons_of_length_eq_add_one (hs ▸ hl)
      cases mark <;>
        simp [pushCall, pushCopy, push, marked, Marks.call, hs, Scope.marked, Scope.define]

theorem leave_marked (rule : CallScope) :
    (env.marked name v (marks.call rule)).pop.exit = env.pop.exit.marked name v marks := by
  cases rule <;> simp [pop, exit, marked, Marks.call, List.tail_zipWith]

theorem zipWith_marked_false (scopes : List Scope) :
    List.zipWith (Scope.marked name v) (List.replicate scopes.length false) scopes = scopes := by
  induction scopes with
  | nil => rfl
  | cons a rest ih => exact congrArg (a :: ·) ih

/-- An assignment marks the innermost scope. -/
theorem assign_eq_marked :
    env.assign name v = env.marked name v (.innermost env.scopes.length) := by
  cases hs : env.scopes with
  | nil => simp [assign, marked, Marks.innermost, Scope.marked, hs]
  | cons a rest =>
    simp [assign, marked, Marks.innermost, Scope.marked, hs, zipWith_marked_false]

end Environment

/-- The second state is the first one with the name bound in the marked scopes, and no function
mentions the name. -/
structure Marked (name : String) (v : Value) (marks : Marks) (s t : State (List Token)) :
    Prop where
  eq : t = { s with env := s.env.marked name v marks }
  length : marks.scopes.length = s.env.scopes.length
  avoids : ∀ n f, s.env.function? n = some f → f.Avoids name

/-- Every name but one, and every value. -/
def Vocabulary.without (name : String) : Vocabulary where
  Name n := n ≠ name
  Good _ := True
  integer _ := trivial
  text _ := trivial
  empty := trivial
  normalized _ := trivial
  result _ _ := trivial

theorem correspondence_marked (name : String) (v : Value) (marks : Marks) :
    Correspondence (.without name) (Same (·.Avoids name)) (Marked name v marks) where
  lookup := by
    intro s t n hn h
    rw [h.eq, Environment.lookup_marked _ hn h.length]
    exact ⟨rfl, fun _ _ => trivial⟩
  assign := by
    intro s t n w hn _ h
    constructor
    · rw [h.eq, Environment.assign_marked _ hn h.length]
    · rw [h.length, Environment.length_scopes_assign]
    · rw [Environment.assign_eq]
      exact h.avoids
  function? := by
    intro s t n _ h
    rw [h.eq]
    show Option.Rel _ (s.env.function? n) (s.env.function? n)
    cases hf : s.env.function? n with
    | none => exact .none
    | some f => exact .some ⟨rfl, h.avoids n f hf⟩
  define := by
    intro s t f g hf h
    obtain ⟨rfl, hf⟩ := hf
    obtain ⟨rfl, hl, havoids⟩ := h
    refine ⟨rfl, hl, fun n g hg => ?_⟩
    rw [Environment.function?_define] at hg
    split at hg
    · exact Option.some.inj hg ▸ hf
    · exact havoids n g hg
  print := by
    intro s t w _ h
    obtain ⟨rfl, hl, havoids⟩ := h
    exact ⟨rfl, hl, havoids⟩

theorem calls_marked (name : String) (v : Value) (marks : Marks) (o : Options) :
    CallsInto (fun _ => False) (Marked name v marks) (Marked name v (marks.call o.callScope))
      o o where
  refused := by
    intro s t f h he
    obtain ⟨hle, rfl⟩ := Environment.enter_eq_error_iff.mp he
    rw [h.eq]
    exact .inr (Environment.enter_eq_error_iff.mpr ⟨hle, rfl⟩)
  entered := by
    intro s t e h he
    obtain ⟨rfl, hl, havoids⟩ := h
    obtain ⟨hd, rfl⟩ := Environment.enter_eq_ok_iff.mp he
    refine ⟨_, Environment.enter_eq_ok_iff.mpr ⟨hd, rfl⟩, ?_, ?_, ?_⟩
    · let deeper := { s.env with depth := s.env.depth + 1 }
      have hpush : (deeper.marked name v marks).pushCall o.callScope =
          (deeper.pushCall o.callScope).marked name v (marks.call o.callScope) :=
        deeper.pushCall_marked o.callScope hl
      exact congrArg (State.mk · s.output) hpush
    · cases o.callScope <;> exact congrArg (· + 1) hl
    · cases o.callScope <;> exact havoids
  left := by
    intro s t h
    obtain ⟨rfl, hl, havoids⟩ := h
    refine ⟨?_, ?_, havoids⟩
    · rw [Environment.leave_marked]
    · have htail : marks.scopes = (marks.call o.callScope).scopes.tail := by
        cases o.callScope <;> rfl
      rw [htail, List.length_tail, hl]
      exact List.length_tail.symm

/-- Runs with and without the variable, whichever of the scopes around it is marked. -/
def besides (name : String) (v : Value) (o : Options) :
    Coupling (.without name) (Evaluation (List Token)) (Evaluation (List Token)) :=
  Correspondence.family (correspondence_marked name v) (fun _ => False) o o

theorem besides_uniform (name : String) (v : Value) (o : Options) :
    (besides name v o).Uniform (Avoids name) 0 where
  spells h t ht _ := h t ht
  operand h hr hx := h.of_infix (hr.isInfix_of_mem hx)
  stored_eq h := h.1
  parameter h p hp heq := h.2.parameters (heq ▸ hp)
  body h hs x hx := h.2.body.of_infix (flatten_of_splitOperands hs ▸ isInfix_flatten_of_mem hx)
  define h hr hd := ⟨rfl, avoids_of_defines (fun x hx => h.of_infix (hr.isInfix_of_mem hx)) hd⟩
  exhausted := by
    intro y hy marks s t _
    rw [hy rfl]
    exact .exhausted
  startRound n _ _ _ hs := .guardRound n hs
  inCall _ h marks s t hs :=
    Follows.called_into (calls_marked name v marks o) hs fun _ _ u hu => h _ _ u hu

/-- The state with the variable bound in the innermost scope, or globally where there is none. -/
def State.withVariable (name : String) (v : Value) (s : State β) : State β :=
  { s with env := s.env.assign name v }

section
variable {s t : State (List Token)} {request : Request}

theorem marked_withVariable (hs : ∀ n f, s.env.function? n = some f → f.Avoids name) (v : Value) :
    Marked name v (.innermost s.env.scopes.length) s (s.withVariable name v) where
  eq := congrArg (State.mk · s.output) s.env.assign_eq_marked
  length := Marks.length_innermost _
  avoids := hs

/-- At the end there are as many scopes as at the beginning, and the marked one is the innermost. -/
theorem Marked.eq_withVariable {n : Nat} (h : Marked name v (.innermost n) s t) :
    t = s.withVariable name v := by
  have hn : n = s.env.scopes.length := (Marks.length_innermost n).symm.trans h.length
  rw [h.eq, hn, ← Environment.assign_eq_marked]
  rfl

/-- A name that is in no token of the request, and neither among the parameters nor in the body of
any function, may be bound before or not: the evaluation does the same with the same number of
steps, and in the end there is a difference only in that variable, which is still bound as it was. -/
theorem ofRequest_withVariable (hr : Avoids name request.tokens)
    (hs : ∀ n f, s.env.function? n = some f → f.Avoids name) (v : Value) (o : Options) :
    (∀ steps, ofRequest request steps o (s.withVariable name v) =
      (ofRequest request steps o s).map (Prod.map id (·.withVariable name v))) ∧
    ∀ r t', EndsIn (ofRequest request) o (s.withVariable name v) (r, t') ↔
      ∃ t, EndsIn (ofRequest request) o s (r, t) ∧ t' = t.withVariable name v := by
  have hrun : ∀ steps, ofRequest request steps o (s.withVariable name v) =
      (ofRequest request steps o s).map (Prod.map id (·.withVariable name v)) := by
    intro steps
    have hdefine : ∀ xs f, (∀ x ∈ xs, Avoids name x) → Defines xs f →
        (besides name v o).Stored f f := fun xs f hx hd => ⟨rfl, avoids_of_defines hx hd⟩
    have hfollows := Request.rel_eval_of_code (besides_uniform name v o) hdefine steps request
      fun x hx => hr.of_infix hx
    exact (hfollows _ s _ (marked_withVariable hs v)).eq_map fun _ _ h => h.eq_withVariable
  refine ⟨hrun, fun r t' => ?_⟩
  simp only [endsIn_ofRequest_iff, hrun]
  constructor
  · rintro ⟨steps, hsteps⟩
    obtain ⟨⟨q, t⟩, hq, heq⟩ := Option.map_eq_some_iff.mp hsteps
    obtain ⟨rfl, rfl⟩ : q = r ∧ t.withVariable name v = t' := by simpa using heq
    exact ⟨t, ⟨steps, hq⟩, rfl⟩
  · rintro ⟨t, ⟨steps, hq⟩, rfl⟩
    exact ⟨steps, by rw [hq]; rfl⟩

end

/-- A function that calls another one from within its scope. -/
def bumping : UserFunction (List Token) :=
  ⟨"bump", ["n"], Lexer.cut "(setq k (+ n 1)) (show k)".toList⟩

def showing : UserFunction (List Token) :=
  ⟨"show", ["a"], Lexer.cut "(print a) (setq k (* a n)) (print k) k".toList⟩

/-- The state within a call, with both functions at hand. -/
def withBump : State (List Token) where
  env := Environment.define (Environment.define { scopes := [{}], depth := 1 } showing) bumping

def bumps : Request := .program (Lexer.cut "(setq x (bump 2)) (print x) (show z2)".toList)

theorem ofRequest_withVariable_bumps :
    ∃ e t, EndsIn (ofRequest bumps) {} withBump (.error e, t) ∧
      t.output = #["3", "6", "6", "z2"] ∧
      EndsIn (ofRequest bumps) {} (withBump.withVariable "z" (.integer 7))
        (.error e, t.withVariable "z" (.integer 7)) := by
  have hrun : (ofRequest bumps 20 {} withBump).bind (fun p =>
      (faultOf? p.1).map fun _ => p.2.output) = some #["3", "6", "6", "z2"] := by
    decide +kernel
  have hshowing : showing.Avoids "z" := ⟨by decide, by decide +kernel⟩
  have hbumping : bumping.Avoids "z" := ⟨by decide, by decide +kernel⟩
  have havoids : ∀ n f, withBump.env.function? n = some f → f.Avoids "z" := by
    intro n f hf
    simp only [withBump, Environment.function?_define] at hf
    split at hf
    · exact Option.some.inj hf ▸ hbumping
    · split at hf
      · exact Option.some.inj hf ▸ hshowing
      · simp [Environment.function?] at hf
  obtain ⟨⟨r, t⟩, hr, hout⟩ := Option.bind_eq_some_iff.mp hrun
  cases r with
  | ok v => cases hout
  | error e =>
    have hends : EndsIn (ofRequest bumps) {} withBump (.error e, t) :=
      endsIn_ofRequest_iff.mpr ⟨20, hr⟩
    obtain ⟨-, hiff⟩ := ofRequest_withVariable (by decide +kernel : Avoids "z" bumps.tokens) havoids
      (.integer 7) {}
    exact ⟨e, t, hends, by simpa [faultOf?] using hout, (hiff _ _).mpr ⟨t, hends, rfl⟩⟩

end FlatLisp
