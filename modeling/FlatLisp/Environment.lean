import FlatLisp.Fault
import FlatLisp.Value
import Std.Data.ExtTreeMap

/-! Environments: variables in scopes, functions, and the number of calls that are active. -/
namespace FlatLisp

/-- Variables and their values. A lookup that comes to an isolated scope goes on with the globals
instead of the scopes below. -/
structure Scope where
  bindings : Std.ExtTreeMap String Value := ∅
  isolated : Bool := false
  deriving DecidableEq

namespace Scope

def get? (s : Scope) (name : String) : Option Value := s.bindings[name]?

def define (s : Scope) (name : String) (v : Value) : Scope :=
  { s with bindings := s.bindings.insert name v }

theorem get?_define {s : Scope} {name other : String} {v : Value} :
    (s.define name v).get? other = if name = other then some v else s.get? other := by
  simp [get?, define, Std.ExtTreeMap.getElem?_insert]

end Scope

/-- A function of the user, with its body in some representation. -/
structure UserFunction (β : Type) where
  name : String
  parameters : List String
  body : β
  deriving DecidableEq, Repr

/-- What the scope of a call holds before its parameters are bound. -/
inductive CallScope
  /-- A copy of the innermost scope of the caller. -/
  | copyCaller
  /-- Nothing, and the scopes of the caller are hidden. -/
  | parametersOnly
  deriving DecidableEq, Repr

/-- The most calls that are active at once, unless a host decides otherwise. -/
def defaultRecursionLimit : Nat := 1000

/-- The state of a session. `scopes` has the innermost scope first and none at top level. -/
structure Environment (β : Type) where
  globals : Scope := {}
  scopes : List Scope := []
  functions : Std.ExtTreeMap String (UserFunction β) := ∅
  depth : Nat := 0
  recursionLimit : Nat := defaultRecursionLimit

namespace Environment
variable {β : Type}

/-- Binds a variable in the innermost scope, or globally where there is none. -/
def assign (env : Environment β) (name : String) (v : Value) : Environment β :=
  match env.scopes with
  | [] => { env with globals := env.globals.define name v }
  | s :: rest => { env with scopes := s.define name v :: rest }

/-- The binding that the scopes have for a name, as far as they are in view. -/
def lookupIn (name : String) : List Scope → Option Value
  | [] => none
  | s :: rest =>
    match s.get? name with
    | some v => some v
    | none => if s.isolated then none else lookupIn name rest

def lookup (env : Environment β) (name : String) : Option Value :=
  (lookupIn name env.scopes).or (env.globals.get? name)

theorem lookup_assign {env : Environment β} {name other : String} {v : Value} :
    (env.assign name v).lookup other = if name = other then some v else env.lookup other := by
  unfold assign lookup
  split <;> simp only [lookupIn, Scope.get?_define, *]
  · split <;> simp
  · rename_i s rest _
    by_cases h : name = other
    · simp [h]
    · simp only [h, if_false]
      rfl

def getInteger? (env : Environment β) (name : String) : Option Int64 :=
  (env.lookup name).bind Value.toInteger?

def getText? (env : Environment β) (name : String) : Option String :=
  (env.lookup name).map Value.display

/-- Stores a function under its name, in place of an earlier one. -/
def define (env : Environment β) (f : UserFunction β) : Environment β :=
  { env with functions := env.functions.insert f.name f }

def function? (env : Environment β) (name : String) : Option (UserFunction β) := env.functions[name]?

theorem function?_define {env : Environment β} {f : UserFunction β} {name : String} :
    (env.define f).function? name = if f.name = name then some f else env.function? name := by
  simp [function?, define, Std.ExtTreeMap.getElem?_insert]

def functionNames (env : Environment β) : List String := env.functions.keys

/-- Every function, in the order of their names. -/
def allFunctions (env : Environment β) : List (UserFunction β) := env.functions.values

def push (env : Environment β) (s : Scope) : Environment β :=
  { env with scopes := s :: env.scopes }

def pushEmpty (env : Environment β) : Environment β := env.push {}

/-- Pushes a copy of the innermost scope, or an empty one where there is none. -/
def pushCopy (env : Environment β) : Environment β :=
  env.push { bindings := (env.scopes.head?.getD {}).bindings }

def pushIsolated (env : Environment β) : Environment β := env.push { isolated := true }

def pushCall (rule : CallScope) (env : Environment β) : Environment β :=
  match rule with
  | .copyCaller => env.pushCopy
  | .parametersOnly => env.pushIsolated

/-- Drops the innermost scope, if there is one. -/
def pop (env : Environment β) : Environment β := { env with scopes := env.scopes.tail }

theorem pop_push (env : Environment β) (s : Scope) : (env.push s).pop = env := rfl

/-- Counts a call that begins, unless as many as the limit allows are active. -/
def enter (env : Environment β) : Except Fault (Environment β) :=
  if env.recursionLimit ≤ env.depth then .error (.recursionLimit env.recursionLimit)
  else .ok { env with depth := env.depth + 1 }

/-- Counts a call that ends. -/
def exit (env : Environment β) : Environment β := { env with depth := env.depth - 1 }

def scopeDepth (env : Environment β) : Nat := env.scopes.length

/-- The scopes down to the first isolated one. -/
def inView : List Scope → List Scope
  | [] => []
  | s :: rest => if s.isolated then [s] else s :: inView rest

/-- Every variable in view with its value, in the order of the names. -/
def bindings (env : Environment β) : List (String × Value) :=
  ((inView env.scopes).foldr (fun s below => below ∪ s.bindings) env.globals.bindings).toList

end Environment
end FlatLisp
