import FlatLisp.Proofs.Session
import FlatLisp.Proofs.TwoLevel.Agreement
import FlatLisp.Proofs.Watch

/-! Two-level scoping. However many calls are active, a variable is read from the innermost scope or
else from the globals, as if there were no scopes in between. -/
namespace FlatLisp
open Machine Evaluation

variable {β : Type} {a : Scope} {rest scopes : List Scope}

/-- Of all scopes, each one decides the lookups that are made while it is the innermost. -/
def ShallowThroughout (scopes : List Scope) : Prop := ∀ rest, rest <:+ scopes → Shallow rest

namespace ShallowThroughout

theorem nil : ShallowThroughout [] := by
  intro rest h
  rw [List.suffix_nil.mp h]
  exact shallow_nil

theorem cons (ha : Shallow (a :: rest)) (h : ShallowThroughout rest) :
    ShallowThroughout (a :: rest) := by
  intro inner hi
  obtain rfl | hi := List.suffix_cons_iff.mp hi
  · exact ha
  · exact h inner hi

theorem shallow (h : ShallowThroughout scopes) : Shallow scopes := h _ (List.suffix_refl _)

theorem tail (h : ShallowThroughout scopes) : ShallowThroughout scopes.tail :=
  fun rest hr => h rest (hr.trans (List.tail_suffix scopes))

theorem assign {env : Environment β} (h : ShallowThroughout env.scopes) (name : String)
    (v : Value) : ShallowThroughout (env.assign name v).scopes := by
  simp only [Environment.assign]
  split
  · exact h
  · rename_i a rest he
    rw [he] at h
    exact .cons (h.shallow.define name v) h.tail

theorem pushCall (env : Environment β) (h : ShallowThroughout env.scopes) (rule : CallScope) :
    ShallowThroughout (env.pushCall rule).scopes := by
  have ha := Shallow.pushCall env h.shallow rule
  obtain ⟨a, he⟩ := env.pushCall_eq rule
  rw [he] at ha ⊢
  exact .cons ha h

end ShallowThroughout

/-- While a call is active, the scopes outside its own do not change. Where they were sufficient
before it, they are so when it is over. -/
theorem invariant_shallowThroughout :
    Invariant fun _ (s : State β) => ShallowThroughout s.env.scopes where
  assign name v h := h.assign name v
  define _ h := h
  print _ h := h
  enter {_ s _} _ rule h he := by
    obtain ⟨-, rfl⟩ := Environment.enter_eq_ok_iff.mp he
    exact ShallowThroughout.pushCall { s.env with depth := s.env.depth + 1 } h rule
  leave h := h.tail

/-- In every session, and whatever is evaluated from a state without scopes: each variable that is
read, at whatever depth, has its value from the innermost scope or else from the globals. With the
same number of steps, the two-level evaluation has the same outcome, output and last state, which is
again without scopes. -/
theorem ofProgram_on_two_levels :
    (∀ s : Session, s.Reachable → s.env.scopes = []) ∧
    ∀ (tokens : List Token) (steps : Nat) (o : Options) (s : State (List Token)),
      s.env.scopes = [] →
      (Watched.ofProgram tokens steps o [] s).2 = ofProgram tokens steps o s ∧
      (∀ m ∈ (Watched.ofProgram tokens steps o [] s).1, ∀ name, m.event = .lookup name →
        m.state.env.lookup name =
          (m.state.env.scopes.head?.bind (·.get? name)).or (m.state.env.globals.get? name)) ∧
      TwoLevelEvaluation.ofProgram tokens steps o s.twoLevel =
        (ofProgram tokens steps o s).map (Prod.map id State.twoLevel) ∧
      ∀ r t, ofProgram tokens steps o s = some (r, t) → t.env.scopes = [] := by
  refine ⟨fun s hs => hs.atRest.scopes, ?_⟩
  intro tokens steps o s hs
  have hthroughout : ShallowThroughout s.env.scopes := hs ▸ .nil
  refine ⟨congrFun (congrFun (unwatched_ofProgram tokens steps []) o) s, ?_,
    ofProgram_twoLevel tokens steps o hthroughout.shallow, ?_⟩
  · intro m hm name _
    have h := invariant_shallowThroughout.of_mem_ofProgram hthroughout hm
    simp only [Environment.lookup, h.shallow name]
  · intro r t ht
    have hframed := framing_uniform.rel_evaluateProgram steps
      (fun x (_ : x <:+: tokens) => trivial) o s r t ht
    exact hframed.1.scopes_eq_nil hs

/-- A call within a call. The outer one assigns to a name of the globals, also for an operand of the
inner one, which reads that name and a parameter of the outer one. -/
def nested : List Token :=
  Lexer.cut "(setq x 1) (defun g (b) (print (+ x b)) a)
    (defun f (a) (setq x 10) (print (g (setq x (+ x a))))) (f 2)".toList

/-- The state in which a session starts. -/
def atStart : State (List Token) := { env := (Session.start {}).env }

theorem nested_on_two_levels :
    (∃ m ∈ (Watched.ofProgram nested 20 {} [] atStart).1, m.event = .lookup "a" ∧
      m.state.env.scopes.length = 2 ∧ m.state.env.lookup "a" =
        (m.state.env.scopes.head?.bind (·.get? "a")).or (m.state.env.globals.get? "a")) ∧
    (TwoLevelEvaluation.ofProgram nested 20 {} atStart.twoLevel).map (·.2.output) =
      some #["24", "2"] ∧
    (TwoLevelEvaluation.ofProgram nested 20 ⟨.parametersOnly, none⟩ atStart.twoLevel).map
      (·.2.output) = some #["13", "a"] := by
  have hread : ((Watched.ofProgram nested 20 {} [] atStart).1.any fun m =>
      match m.event with
      | .lookup name => name = "a" ∧ m.state.env.scopes.length = 2
      | _ => false) = true := by
    decide +kernel
  have hcopy : (ofProgram nested 20 {} atStart).map (·.2.output) = some #["24", "2"] := by
    decide +kernel
  have honly : (ofProgram nested 20 ⟨.parametersOnly, none⟩ atStart).map (·.2.output) =
      some #["13", "a"] := by
    decide +kernel
  have hs : atStart.env.scopes = [] := ofProgram_on_two_levels.1 _ (.start {})
  obtain ⟨-, hlookups, hends, -⟩ := ofProgram_on_two_levels.2 nested 20 {} atStart hs
  obtain ⟨-, -, hends', -⟩ :=
    ofProgram_on_two_levels.2 nested 20 ⟨.parametersOnly, none⟩ atStart hs
  refine ⟨?_, ?_, ?_⟩
  · obtain ⟨m, hm, he⟩ := List.any_eq_true.mp hread
    split at he
    · rename_i name hn
      obtain ⟨rfl, hl⟩ : name = "a" ∧ m.state.env.scopes.length = 2 := by simpa using he
      exact ⟨m, hm, hn, hl, hlookups m hm "a" hn⟩
    · cases he
  · rw [hends, Option.map_map]
    exact hcopy
  · rw [hends', Option.map_map]
    exact honly

end FlatLisp
