import FlatLisp.Proofs.Nesting.Form

/-! Scanning for parens finds in the tokens of trees the tokens of each tree. -/
namespace FlatLisp.Tree
open Nesting

mutual

/-- Within a form, a tree is read over without a change of depth. -/
theorem formFrom_tokens (tree : Tree) (start : Nat) (form : List Token) (depth index : Nat)
    (rest : List Token) :
    formFrom start form depth index (tree.tokens ++ rest) =
      formFrom start (tree.tokens.reverse ++ form) depth (index + tree.tokens.length) rest :=
  match tree with
  | number _ => rfl
  | symbol _ => rfl
  | list opening closing elements => by
    have h := formFrom_tokensOf elements start (⟨.opening, opening⟩ :: form) (depth + 1) (index + 1)
      (⟨.closing, closing⟩ :: rest)
    have hindex : index + 1 + (tokensOf elements).length + 1 =
        index + ((tokensOf elements).length + 1 + 1) := by omega
    simp [tokens, formFrom, h, hindex]

theorem formFrom_tokensOf (trees : List Tree) (start : Nat) (form : List Token)
    (depth index : Nat) (rest : List Token) :
    formFrom start form depth index (tokensOf trees ++ rest) =
      formFrom start ((tokensOf trees).reverse ++ form) depth (index + (tokensOf trees).length)
        rest :=
  match trees with
  | [] => rfl
  | tree :: trees => by
    have hfirst := formFrom_tokens tree start form depth index (tokensOf trees ++ rest)
    have hrest := formFrom_tokensOf trees start (tree.tokens.reverse ++ form) depth
      (index + tree.tokens.length) rest
    simpa [tokensOf, Nat.add_assoc] using hfirst.trans hrest

end

theorem operandsFrom_tokens (tree : Tree) (index : Nat) (rest : List Token) :
    operandsFrom index (tree.tokens ++ rest) =
      (operandsFrom (index + tree.tokens.length) rest).cons tree.tokens := by
  cases tree with
  | number text => rfl
  | symbol text => rfl
  | list opening closing elements =>
    have h := formFrom_tokensOf elements index [⟨.opening, opening⟩] 0 (index + 1)
      (⟨.closing, closing⟩ :: rest)
    have hindex : index + 1 + (tokensOf elements).length + 1 =
        index + ((tokensOf elements).length + 1 + 1) := by omega
    simp [tokens, operandsFrom, formFrom, h, hindex]

theorem operandsFrom_tokensOf (trees : List Tree) (index : Nat) :
    operandsFrom index (tokensOf trees) = ⟨trees.map tokens, none⟩ := by
  induction trees generalizing index with
  | nil => rfl
  | cons tree trees ih =>
    rw [tokensOf, operandsFrom_tokens, ih]
    rfl

theorem operands_tokensOf (trees : List Tree) :
    operands (tokensOf trees) = ⟨trees.map tokens, none⟩ := operandsFrom_tokensOf trees 0

theorem splitOperands_tokensOf (trees : List Tree) :
    splitOperands (tokensOf trees) = .ok (trees.map tokens) := by
  simp [splitOperands_eq_ok_iff, operands_tokensOf]

theorem enclosed?_tokens_list (opening closing : String) (elements : List Tree) :
    enclosed? (list opening closing elements).tokens = some (tokensOf elements) :=
  enclosed?_eq_some_iff.mpr ⟨_, _, rfl, rfl, rfl⟩

end FlatLisp.Tree

namespace FlatLisp.Nesting
variable {x tokens later : List Token} {xs ys : List (List Token)}

theorem IsOperand.exists_tree (h : IsOperand x) : ∃ tree : Tree, tree.tokens = x := by
  obtain ⟨⟨kind, text⟩, rfl, ho, hc⟩ | ⟨⟨_, opening⟩, inner, ⟨_, closing⟩, rfl, ho, hc, hb⟩ := h
  · cases kind with
    | number => exact ⟨.number text, rfl⟩
    | symbol => exact ⟨.symbol text, rfl⟩
    | opening => exact absurd rfl ho
    | closing => exact absurd rfl hc
  · obtain rfl := isOpen_iff.mp ho
    obtain rfl := isClose_iff.mp hc
    obtain ⟨trees, rfl⟩ := Tree.exists_tokensOf_iff.mpr hb
    exact ⟨.list opening closing trees, rfl⟩

theorem exists_trees (h : ∀ x ∈ xs, IsOperand x) :
    ∃ trees : List Tree, trees.map Tree.tokens = xs := by
  induction xs with
  | nil => exact ⟨[], rfl⟩
  | cons x xs ih =>
    obtain ⟨hx, hxs⟩ := List.forall_mem_cons.mp h
    obtain ⟨tree, rfl⟩ := hx.exists_tree
    obtain ⟨trees, rfl⟩ := ih hxs
    exact ⟨tree :: trees, rfl⟩

/-- Operands that are written one after another are found again. -/
theorem splitOperands_flatten (h : ∀ x ∈ xs, IsOperand x) : splitOperands xs.flatten = .ok xs := by
  obtain ⟨trees, rfl⟩ := exists_trees h
  rw [Tree.flatten_map_tokens, Tree.splitOperands_tokensOf]

theorem exists_splitOperands (h : Balanced tokens) : ∃ xs, splitOperands tokens = .ok xs := by
  obtain ⟨trees, rfl⟩ := Tree.exists_tokensOf_iff.mpr h
  exact ⟨_, Tree.splitOperands_tokensOf trees⟩

theorem splitOperands_append (hx : splitOperands tokens = .ok xs)
    (hy : splitOperands later = .ok ys) : splitOperands (tokens ++ later) = .ok (xs ++ ys) := by
  have hoperands : ∀ x ∈ xs ++ ys, IsOperand x := List.forall_mem_append.mpr
    ⟨fun _ => isOperand_of_splitOperands hx, fun _ => isOperand_of_splitOperands hy⟩
  rw [← flatten_of_splitOperands hx, ← flatten_of_splitOperands hy, ← List.flatten_append]
  exact splitOperands_flatten hoperands

end FlatLisp.Nesting
