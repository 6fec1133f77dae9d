import FlatLisp.Proofs.Arithmetic
import FlatLisp.Proofs.Definition
import FlatLisp.Proofs.Session.Integers

/-! How deep calls go. A function that calls itself as often as its argument says tells the limit
on recursion: as many calls are admitted as the limit is, and the next one is refused. -/
namespace FlatLisp
open Machine Eval Nesting Evaluation

theorem Value.isTruthy_ofBool (b : Bool) : (ofBool b).isTruthy = b := by
  cases b <;> decide

namespace Depth

def name : List Token := [⟨.symbol, "n"⟩]

def literal (k : Int64) : List Token := [⟨.number, Integer.render k⟩]

/-- The text is `(= n 0)`. -/
def isZero : List Token := headedBy Operator.eq.symbol [name, literal 0]

/-- The text is `(- n 1)`. -/
def less : List Token := headedBy Operator.sub.symbol [name, literal 1]

/-- The text is `(depth (- n 1))`. -/
def call : List Token := headedBy "depth" [less]

/-- The text is `(+ 1 (depth (- n 1)))`. -/
def more : List Token := headedBy Operator.add.symbol [literal 1, call]

/-- The text is `(if (= n 0) 0 (+ 1 (depth (- n 1))))`. -/
def body : List Token := headedBy SpecialForm.cond.symbol [isZero, literal 0, more]

/-- Gives its argument back, after as many calls of itself. -/
def counter : UserFunction (List Token) := ⟨"depth", ["n"], body⟩

@[simp] theorem isOperand_name : IsOperand name := .atom nofun nofun

@[simp] theorem isOperand_literal (k : Int64) : IsOperand (literal k) := .atom nofun nofun

@[simp] theorem isOperand_isZero : IsOperand isZero := isOperand_headedBy _ (by simp)

@[simp] theorem isOperand_less : IsOperand less := isOperand_headedBy _ (by simp)

@[simp] theorem isOperand_call : IsOperand call := isOperand_headedBy _ (by simp)

@[simp] theorem isOperand_more : IsOperand more := isOperand_headedBy _ (by simp)

@[simp] theorem isOperand_body : IsOperand body := isOperand_headedBy _ (by simp)

theorem applies_isZero : Applies isZero (.operator .eq) [name, literal 0] :=
  applies_headedBy (.operator .eq) (by simp)

theorem applies_less : Applies less (.operator .sub) [name, literal 1] :=
  applies_headedBy (.operator .sub) (by simp)

theorem applies_more : Applies more (.operator .add) [literal 1, call] :=
  applies_headedBy (.operator .add) (by simp)

theorem applies_body : Applies body (.special .cond) [isZero, literal 0, more] :=
  applies_headedBy (.special .cond) (by simp)

theorem splitOperands_body : splitOperands counter.body = .ok [body] := by
  have hsplit : splitOperands [body].flatten = .ok [body] :=
    splitOperands_flatten (by simp)
  simpa [counter] using hsplit

variable {o : Options} {s : State (List Token)} {k l : Int64} {r : Except Error Value}

theorem isCall_call (hf : s.env.function? "depth" = some counter) :
    IsCall s.env call counter [less] :=
  isCall_headedBy (by decide) hf (by simp)

theorem endsIn_name (hn : s.env.lookup "n" = some (.integer k)) :
    EndsIn (ofOperand name) o s (.ok (.integer k), s) := endsIn_symbol rfl hn

theorem endsIn_literal (k : Int64) : EndsIn (ofOperand (literal k)) o s (.ok (.integer k), s) :=
  endsIn_render k o s

theorem endsIn_isZero (hn : s.env.lookup "n" = some (.integer k)) :
    EndsIn (ofOperand isZero) o s (.ok (.ofBool (k.toInt = 0)), s) := by
  refine applies_isZero.endsIn_operator rfl
    ((endsIn_name hn).operands_cons ((endsIn_literal 0).operands_cons endsIn_operands_nil)) ?_
  have heq : (compare k.toInt 0 = .eq) = (k.toInt = 0) := propext compare_eq_iff_eq
  simp only [← heq]
  rfl

theorem sub_one (hl : l.toInt = k.toInt - 1) :
    Operator.sub.apply [.integer k, .integer 1] = .ok (.integer l) := by
  have hreads : List.Forall₂ Value.ReadsAs [.integer k, .integer 1] [k.toInt, 1] :=
    .cons ⟨k, rfl, rfl⟩ (.cons ⟨1, rfl, rfl⟩ .nil)
  have hfits : ∀ n ∈ [1].scanl (· - ·) k.toInt, Integer.Fits n := by
    simpa [← hl] using ⟨Integer.fits_toInt k, Integer.fits_toInt l⟩
  obtain ⟨m, hm, hok⟩ := (Operator.exactOrOverflow_sub hreads).1 hfits
  obtain rfl : m = l := Int64.toInt_inj.mp (by simpa [hl] using hm)
  exact hok

theorem one_add (hl : l.toInt = k.toInt - 1) :
    Operator.add.apply [.integer 1, .integer l] = .ok (.integer k) := by
  have hreads : List.Forall₂ Value.ReadsAs [.integer 1, .integer l] [1, l.toInt] :=
    .cons ⟨1, rfl, rfl⟩ (.cons ⟨l, rfl, rfl⟩ .nil)
  have hfits : ∀ n ∈ [1, l.toInt].scanl (· + ·) 0, Integer.Fits n := by
    have hzero : Integer.Fits 0 := by decide
    have hone : Integer.Fits 1 := by decide
    have hk : Integer.Fits (1 + l.toInt) := by
      rw [hl, Int.add_comm, Int.sub_add_cancel]
      exact Integer.fits_toInt k
    simpa using ⟨hzero, hone, hk⟩
  obtain ⟨m, hm, hok⟩ := (Operator.exactOrOverflow_add hreads).1 hfits
  obtain rfl : m = k := Int64.toInt_inj.mp (by simpa [hl] using hm)
  exact hok

theorem endsIn_less (hn : s.env.lookup "n" = some (.integer k)) (hl : l.toInt = k.toInt - 1) :
    EndsIn (ofOperand less) o s (.ok (.integer l), s) :=
  applies_less.endsIn_operator rfl
    ((endsIn_name hn).operands_cons ((endsIn_literal 1).operands_cons endsIn_operands_nil))
    (sub_one hl)

/-- The state within a call that has the scope. -/
def within (scope : Scope) (s : State (List Token)) : State (List Token) :=
  { s with env := { s.env with scopes := scope :: s.env.scopes, depth := s.env.depth + 1 } }

theorem lookup_within {scope : Scope} (h : scope.get? "n" = some (.integer k)) :
    (within scope s).env.lookup "n" = some (.integer k) := by
  simp [within, Environment.lookup, Environment.lookupIn, h]

theorem fault_mapError_locate (r : Except Error Value) (form : List Token) :
    (r.mapError (·.locate form)).mapError Error.fault = r.mapError Error.fault := by
  cases r <;> simp [Except.mapError, Error.fault_locate]

/-- A call that is admitted goes on with a branch of its body. If that leaves the state as it was
within the call, the call leaves it as it was before. -/
theorem exists_scope (o : Options) (k : Int64) (hd : s.env.depth < s.env.recursionLimit) :
    ∃ scope : Scope, scope.get? "n" = some (.integer k) ∧
      ∀ r, EndsIn (ofOperand (if k.toInt = 0 then literal 0 else more)) o (within scope s)
          (r, within scope s) →
        ∃ q, EndsIn (ofInvoke counter [.integer k]) o s (q, s) ∧
          q.mapError Error.fault = r.mapError Error.fault := by
  obtain ⟨a, ha⟩ := Environment.pushCall_eq { s.env with depth := s.env.depth + 1 } o.callScope
  let scope := a.define "n" (.integer k)
  have hscope : scope.get? "n" = some (.integer k) := by simp [scope, Scope.get?_define]
  refine ⟨scope, hscope, fun r hr => ⟨r.mapError (·.locate body), ?_, fault_mapError_locate r body⟩⟩
  have hbranch := applies_body.endsIn_if (endsIn_isZero (lookup_within hscope))
    (by simpa only [Value.isTruthy_ofBool, decide_eq_true_eq] using hr)
  have henter := Environment.enter_eq_ok_iff.mpr ⟨hd, rfl⟩
  refine endsIn_invoke rfl splitOperands_body henter (t := within scope s) ?_
  rw [ha]
  exact EndsIn.bind_ok ⟨0, fun _ _ => rfl⟩ hbranch.sequence_singleton

/-- What a call comes to that has as many calls to come. An error is told by its fault alone. -/
def outcome (limit depth calls : Nat) (k : Int64) : Except Fault Value :=
  if depth + calls < limit then .ok (.integer k) else .error (.recursionLimit limit)

theorem exists_endsIn_more {limit depth calls : Nat} (hn : s.env.lookup "n" = some (.integer k))
    (hf : s.env.function? "depth" = some counter) (hl : l.toInt = k.toInt - 1)
    (hr : EndsIn (ofInvoke counter [.integer l]) o s (r, s))
    (hout : r.mapError Error.fault = outcome limit depth calls l) :
    ∃ q, EndsIn (ofOperand more) o s (q, s) ∧
      q.mapError Error.fault = outcome limit depth calls k := by
  have hcall := (isCall_call hf).endsIn ((endsIn_less hn hl).operands_cons endsIn_operands_nil) hr
  unfold outcome at hout ⊢
  cases r with
  | ok v =>
    split at hout
    · obtain rfl : v = .integer l := by simpa [Except.mapError] using hout
      have hmore := applies_more.endsIn_operator rfl
        ((endsIn_literal 1).operands_cons (hcall.operands_cons endsIn_operands_nil)) (one_add hl)
      rw [if_pos ‹_›]
      exact ⟨_, hmore, rfl⟩
    · cases hout
  | error e =>
    split at hout
    · cases hout
    · have hmore := applies_more.endsIn_operator_error rfl
        ((endsIn_literal 1).operands_cons_error hcall.operands_error)
      rw [if_neg ‹_›]
      refine ⟨_, hmore, ?_⟩
      simpa [Except.mapError, Error.fault_locate] using hout

theorem exists_endsIn_of_le (o : Options) (k : Int64) (calls : Nat)
    (hd : s.env.recursionLimit ≤ s.env.depth) :
    ∃ r, EndsIn (ofInvoke counter [.integer k]) o s (r, s) ∧
      r.mapError Error.fault = outcome s.env.recursionLimit s.env.depth calls k := by
  have hrefused := Environment.enter_eq_error_iff.mpr ⟨hd, rfl⟩
  refine ⟨_, endsIn_invoke_refused rfl splitOperands_body hrefused, ?_⟩
  rw [outcome, if_neg (by omega)]
  rfl

/-- By induction on the calls that are to come, each of which is one deeper. -/
theorem exists_endsIn_counter (o : Options) {calls : Nat} (hk : k.toInt = calls)
    (hf : s.env.function? "depth" = some counter) :
    ∃ r, EndsIn (ofInvoke counter [.integer k]) o s (r, s) ∧
      r.mapError Error.fault = outcome s.env.recursionLimit s.env.depth calls k := by
  induction calls generalizing k s with
  | zero =>
    obtain hd | hd := Nat.lt_or_ge s.env.depth s.env.recursionLimit
    · obtain ⟨scope, -, hcall⟩ := exists_scope o k hd
      have hzero : k.toInt = 0 := hk
      rw [if_pos hzero] at hcall
      obtain ⟨q, hq, hout⟩ := hcall _ (endsIn_literal 0)
      obtain rfl : k = 0 := Int64.toInt_inj.mp hzero
      refine ⟨q, hq, hout.trans ?_⟩
      rw [outcome, Nat.add_zero, if_pos hd]
      rfl
    · exact exists_endsIn_of_le o k 0 hd
  | succ calls ih =>
    obtain hd | hd := Nat.lt_or_ge s.env.depth s.env.recursionLimit
    · obtain ⟨scope, hscope, hcall⟩ := exists_scope o k hd
      rw [if_neg (by omega)] at hcall
      have hfits : Integer.Fits (k.toInt - 1) := by
        have hfits := Integer.fits_toInt k
        simp only [Integer.Fits, Integer.bound] at *
        omega
      obtain ⟨l, -, hl⟩ := Integer.exists_of_fits hfits
      -- the call within is one deeper, and there is one less to come
      obtain ⟨r, hr, hout⟩ := ih (s := within scope s) (k := l) (by omega) hf
      have hdeeper : outcome (within scope s).env.recursionLimit (within scope s).env.depth calls =
          outcome s.env.recursionLimit s.env.depth (calls + 1) := by
        funext k
        simp only [outcome, within, Nat.add_assoc, Nat.add_comm 1]
      rw [hdeeper] at hout
      obtain ⟨q, hq, hout⟩ := exists_endsIn_more (lookup_within hscope) hf hl hr hout
      obtain ⟨p, hp, he⟩ := hcall q hq
      exact ⟨p, hp, he.trans hout⟩
    · exact exists_endsIn_of_le o k _ hd

/-- The source of the definition. -/
def definition : String := "(defun depth (n) (if (= n 0) 0 (+ 1 (depth (- n 1)))))"

theorem tokenize_definition (comments : Bool) :
    Lexer.tokenize comments definition = .ok counter.form := by
  cases comments <;> decide +kernel

/-- The definition stores the function, wherever it is evaluated. -/
theorem endsIn_definition (o : Options) (s : State (List Token)) :
    EndsIn (ofProgram counter.form) o s
      (.ok (.text "depth"), { s with env := s.env.define counter }) := by
  let operands := [[⟨.symbol, "depth"⟩], [.openParen, ⟨.symbol, "n"⟩, .closeParen], body]
  have hdeclares : Declares operands counter :=
    ⟨.openParen, .closeParen, [body], rfl, rfl, rfl, by decide, by decide, by simp,
      by simp [counter]⟩
  have hoperands : ∀ x ∈ operands, IsOperand x := by
    have hfunction : IsOperand [⟨.symbol, "depth"⟩] := .atom nofun nofun
    have hlist : IsOperand [.openParen, ⟨.symbol, "n"⟩, .closeParen] :=
      isOperand_parameters rfl rfl ["n"]
    simp [operands, hfunction, hlist]
  obtain ⟨ys, hform, hys⟩ := hdeclares.exists_isDefinition_form hoperands
  exact (hform.endsIn_of_declares hys o s).ofProgram hform.isForm

/-- The source that calls the function. -/
def invocation (k : Int64) : String := "(depth " ++ Integer.render k ++ ")"

theorem tokenize_invocation (comments : Bool) (k : Int64) :
    Lexer.tokenize comments (invocation k) = .ok (headedBy "depth" [literal k]) := by
  have hname : Lexer.Readable comments ⟨.symbol, "depth"⟩ :=
    Lexer.readable_of_tokenize (tokenize_definition comments) (by simp [counter, UserFunction.form])
  refine tokenize_headedBy ?_ (by simp) hname ?_
  · apply String.toList_inj.mp
    rw [Token.toList_render]
    simp [headedBy, literal, invocation, Token.pieces, Token.gap, Token.openParen,
      Token.closeParen]
  · simpa [literal] using (Integer.isNumeral_render k).readable comments

theorem exists_endsIn_invocation (o : Options) {calls : Nat} (hk : k.toInt = calls)
    (hf : s.env.function? "depth" = some counter) :
    ∃ r, EndsIn (ofProgram (headedBy "depth" [literal k])) o s (r, s) ∧
      r.mapError Error.fault = outcome s.env.recursionLimit s.env.depth calls k := by
  obtain ⟨r, hr, hout⟩ := exists_endsIn_counter o hk hf
  have hoperands : ∀ x ∈ [literal k], IsOperand x := by simp
  have hcall : IsCall s.env (headedBy "depth" [literal k]) counter [literal k] :=
    isCall_headedBy (by decide) hf hoperands
  have hend := hcall.endsIn ((endsIn_literal k).operands_cons endsIn_operands_nil) hr
  exact ⟨_, hend.program (isForm_headedBy _ hoperands), (fault_mapError_locate r _).trans hout⟩

end Depth

open Depth

/-- In a session of its own, whatever its configuration is, the function gives back its argument if
that is below the limit on recursion. Otherwise the limit refuses a call. Nothing is left in either
case but the function. -/
theorem Session.calls_as_deep_as_limit (config : Config) {k : Int64} (hk : 0 ≤ k.toInt) :
    ∃ n, ∀ steps, n ≤ steps → ∃ x y s t,
      (start config).execute steps definition = some (x, s) ∧ x.outcome = .ok (.text "depth") ∧
      s.execute steps (invocation k) = some (y, t) ∧
      y.outcome.mapError Error.fault =
        (if k.toInt < config.recursionLimit then .ok (.integer k)
          else .error (.recursionLimit config.recursionLimit)) ∧
      t.env = config.environment.define counter ∧ t.env.depth = 0 ∧ t.env.scopes = [] ∧
      t.env.bindings = [] ∧ t.env.function? "depth" = some counter := by
  let defined : Session := { config := config, env := config.environment.define counter }
  have hf : defined.env.function? "depth" = some counter := by
    simp [defined, Environment.function?_define, counter]
  have hcalls : k.toInt = k.toInt.toNat := (Int.toNat_of_nonneg hk).symm
  obtain ⟨r, hr, hout⟩ := exists_endsIn_invocation defined.config.options hcalls
    (s := { env := defined.env }) hf
  obtain ⟨m, hm⟩ := exists_execute_of_endsIn (s := start config) (tokenize_definition _)
    (endsIn_definition _ _)
  obtain ⟨n, hn⟩ := exists_execute_of_endsIn (s := defined) (tokenize_invocation _ _) hr
  refine ⟨max m n, fun steps hle => ?_⟩
  obtain ⟨hlm, hln⟩ := Nat.max_le.mp hle
  have hlimit : 0 + k.toInt.toNat < config.recursionLimit ↔ k.toInt < config.recursionLimit := by
    omega
  have houtcome : r.mapError Error.fault = if k.toInt < config.recursionLimit then
      .ok (.integer k) else .error (.recursionLimit config.recursionLimit) :=
    hout.trans (if_congr hlimit rfl rfl)
  exact ⟨_, _, defined, _, hm steps hlm, rfl, hn steps hln, houtcome, rfl, rfl, rfl, rfl, hf⟩

/-- With a limit of three, two calls within one are admitted, but not three. -/
theorem Session.calls_as_deep_as_limit_three :
    ∃ n, ∀ steps, n ≤ steps → ∃ (x y z : Execution) (s t u : Session),
      (start { recursionLimit := 3 }).execute steps definition = some (x, s) ∧
      s.execute steps "(depth 2)" = some (y, t) ∧
      y.outcome.mapError Error.fault = .ok (.integer 2) ∧ t.env.depth = 0 ∧
      s.execute steps "(depth 3)" = some (z, u) ∧
      z.outcome.mapError Error.fault = .error (.recursionLimit 3) ∧ u.env.depth = 0 := by
  obtain ⟨m, hm⟩ := calls_as_deep_as_limit { recursionLimit := 3 } (k := 2) (by decide)
  obtain ⟨n, hn⟩ := calls_as_deep_as_limit { recursionLimit := 3 } (k := 3) (by decide)
  refine ⟨max m n, fun steps hle => ?_⟩
  obtain ⟨hlm, hln⟩ := Nat.max_le.mp hle
  obtain ⟨x, y, s, t, hx, -, hy, hout, -, hdepth, -⟩ := hm steps hlm
  obtain ⟨x', z, s', u, hx', -, hz, hout', -, hdepth', -⟩ := hn steps hln
  obtain ⟨-, rfl⟩ : x = x' ∧ s = s' := by simpa using hx.symm.trans hx'
  have htwo : invocation 2 = "(depth 2)" := by decide +kernel
  have hthree : invocation 3 = "(depth 3)" := by decide +kernel
  exact ⟨x, y, z, s, t, u, hx, htwo ▸ hy, hout, hdepth, hthree ▸ hz, hout', hdepth'⟩

end FlatLisp
