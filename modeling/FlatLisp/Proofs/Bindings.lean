import FlatLisp.Environment
import FlatLisp.Proofs.ByteOrder

/-! The list of the variables in view. It says what a lookup says, name by name, and it has only one
way to say it. -/
namespace FlatLisp.Environment

variable {β γ : Type} {env : Environment β} {other : Environment γ} {name : String} {v : Value}

/-- Overriding the globals from the outside in comes to the same as a search from the inside out. -/
theorem getElem?_foldr_inView (globals : Std.ExtTreeMap String Value) (scopes : List Scope) :
    ((inView scopes).foldr (fun s below => below ∪ s.bindings) globals)[name]? =
      (lookupIn name scopes).or globals[name]? := by
  induction scopes with
  | nil => rfl
  | cons s rest ih =>
    simp only [inView, lookupIn, Scope.get?]
    cases s.isolated with
    | true =>
      simp only [if_true, List.foldr_cons, List.foldr_nil, Std.ExtTreeMap.getElem?_union]
      cases s.bindings[name]? <;> rfl
    | false =>
      simp only [Bool.false_eq_true, if_false, List.foldr_cons, Std.ExtTreeMap.getElem?_union, ih]
      cases s.bindings[name]? <;> rfl

theorem mem_bindings_iff : (name, v) ∈ env.bindings ↔ env.lookup name = some v := by
  rw [bindings, Std.ExtTreeMap.mem_toList_iff_getElem?_eq_some, getElem?_foldr_inView]
  rfl

theorem pairwise_bindings (env : Environment β) :
    env.bindings.Pairwise fun a b => a.1 < b.1 := by
  have hkeys : env.bindings.Pairwise fun a b => compare a.1 b.1 = .lt :=
    Std.ExtTreeMap.ordered_keys_toList
  exact hkeys.imp fun h => compareOfLessAndEq_eq_lt.mp h

theorem bindings_eq_iff :
    env.bindings = other.bindings ↔ ∀ name, env.lookup name = other.lookup name := by
  constructor
  · intro h name
    refine Option.ext fun v => ?_
    rw [← mem_bindings_iff, ← mem_bindings_iff, h]
  · intro h
    refine Std.ExtTreeMap.toList_inj.mpr (Std.ExtTreeMap.ext_getElem? fun name => ?_)
    rw [getElem?_foldr_inView, getElem?_foldr_inView]
    exact h name

/-- In every environment, whichever scopes of it are isolated and whichever names are bound in more
than one of them: a name is listed with a value if and only if a lookup finds that value; the names
ascend strictly by their bytes; and the list is determined by what the lookups find. -/
theorem bindings_are_lookups (env : Environment β) :
    (∀ name v, (name, v) ∈ env.bindings ↔ env.lookup name = some v) ∧
    (env.bindings.map fun b => utf8 b.1).Pairwise (· < ·) ∧ (env.bindings.map Prod.fst).Nodup ∧
    ∀ other : Environment γ, env.bindings = other.bindings ↔
      ∀ name, env.lookup name = other.lookup name := by
  refine ⟨fun _ _ => mem_bindings_iff, ?_, ?_, fun _ => bindings_eq_iff⟩
  · rw [List.pairwise_map]
    exact env.pairwise_bindings.imp utf8_lt_utf8
  · rw [List.nodup_iff_pairwise_ne, List.pairwise_map]
    refine env.pairwise_bindings.imp fun hlt heq => ?_
    rw [heq] at hlt
    exact String.lt_irrefl _ hlt

end FlatLisp.Environment
