import FlatLisp.Token

/-! Trees: tokens with their nesting. The token lists that are written as trees are exactly those
with balanced parens. -/
namespace FlatLisp

namespace Nesting

/-- How many parens are open after the tokens where `depth` were before them, if none of them is
closed without having been opened. -/
def openAfter (depth : Nat) : List Token → Option Nat
  | [] => some depth
  | t :: ts =>
    match t.kind, depth with
    | .opening, _ => openAfter (depth + 1) ts
    | .closing, 0 => none
    | .closing, depth + 1 => openAfter depth ts
    | _, _ => openAfter depth ts

/-- The number of open parens never goes below zero and is zero at the end. -/
def Balanced (tokens : List Token) : Prop := openAfter 0 tokens = some 0

instance (tokens : List Token) : Decidable (Balanced tokens) :=
  inferInstanceAs (Decidable (openAfter 0 tokens = some 0))

theorem openAfter_append (depth : Nat) (xs ys : List Token) :
    openAfter depth (xs ++ ys) = (openAfter depth xs).bind (openAfter · ys) := by
  induction xs generalizing depth with
  | nil => rfl
  | cons t ts ih =>
    obtain ⟨kind, text⟩ := t
    cases kind with
    | number => exact ih depth
    | symbol => exact ih depth
    | opening => exact ih (depth + 1)
    | closing =>
      cases depth with
      | zero => rfl
      | succ depth => exact ih depth

theorem Balanced.append {xs ys : List Token} (hx : Balanced xs) (hy : Balanced ys) :
    Balanced (xs ++ ys) := by
  rw [Balanced, openAfter_append, hx]
  exact hy

end Nesting

open Nesting

/-- An atom, or a list of trees between two parens. The parens have texts of their own, which error
messages quote. -/
inductive Tree
  | number (text : String)
  | symbol (text : String)
  | list (opening closing : String) (elements : List Tree)

namespace Tree

mutual

def tokens : Tree → List Token
  | number text => [⟨.number, text⟩]
  | symbol text => [⟨.symbol, text⟩]
  | list opening closing elements =>
    ⟨.opening, opening⟩ :: (tokensOf elements ++ [⟨.closing, closing⟩])

/-- The tokens of trees that are written one after another. -/
def tokensOf : List Tree → List Token
  | [] => []
  | tree :: trees => tree.tokens ++ tokensOf trees

end

/-- The trees that tokens are written from. `before` holds the trees that were read of the
innermost open list, the last one first, and `outer` the same for each list around it, with the
text of the paren that opened the next one. -/
def parseFrom (outer : List (String × List Tree)) (before : List Tree) :
    List Token → Option (List Tree)
  | [] => if outer.isEmpty then some before.reverse else none
  | t :: ts =>
    match t.kind, outer with
    | .number, _ => parseFrom outer (number t.text :: before) ts
    | .symbol, _ => parseFrom outer (symbol t.text :: before) ts
    | .opening, _ => parseFrom ((t.text, before) :: outer) [] ts
    | .closing, [] => none
    | .closing, (opening, earlier) :: outer =>
      parseFrom outer (list opening t.text before.reverse :: earlier) ts

def parse? (tokens : List Token) : Option (List Tree) := parseFrom [] [] tokens

/-- A list is written with two tokens at least, of which the first one is not its last one. -/
theorem exists_tokens_list_eq (opening closing : String) (elements : List Tree) :
    ∃ t ts, (list opening closing elements).tokens = ⟨.opening, opening⟩ :: t :: ts := by
  obtain ⟨t, ts, h⟩ : ∃ t ts, tokensOf elements ++ [⟨.closing, closing⟩] = t :: ts :=
    List.exists_cons_of_ne_nil (by simp)
  exact ⟨t, ts, congrArg (List.cons _) h⟩

theorem tokensOf_append (xs ys : List Tree) :
    tokensOf (xs ++ ys) = tokensOf xs ++ tokensOf ys := by
  induction xs with
  | nil => rfl
  | cons x xs ih => simp only [List.cons_append, tokensOf, ih, List.append_assoc]

theorem flatten_map_tokens (trees : List Tree) : (trees.map tokens).flatten = tokensOf trees := by
  induction trees with
  | nil => rfl
  | cons tree trees ih => simp only [List.map_cons, List.flatten_cons, tokensOf, ih]

/-- The tokens in front of the innermost open list. -/
def tokensAround : List (String × List Tree) → List Token
  | [] => []
  | (opening, earlier) :: outer =>
    tokensAround outer ++ tokensOf earlier.reverse ++ [⟨.opening, opening⟩]

theorem tokensOf_of_parseFrom {outer : List (String × List Tree)} {before trees : List Tree}
    {ts : List Token} (h : parseFrom outer before ts = some trees) :
    tokensOf trees = tokensAround outer ++ tokensOf before.reverse ++ ts := by
  induction ts generalizing outer before with
  | nil =>
    cases outer with
    | nil =>
      obtain rfl : before.reverse = trees := by simpa [parseFrom] using h
      simp [tokensAround]
    | cons _ _ => simp [parseFrom] at h
  | cons t ts ih =>
    obtain ⟨kind, text⟩ := t
    cases kind with
    | number => simpa [parseFrom, tokensOf_append, tokensOf, tokens] using ih h
    | symbol => simpa [parseFrom, tokensOf_append, tokensOf, tokens] using ih h
    | opening => simpa [tokensAround, tokensOf] using ih h
    | closing =>
      match outer, h with
      | (opening, earlier) :: outer, h =>
        simpa [tokensAround, tokensOf_append, tokensOf, tokens] using ih h

theorem tokensOf_of_parse? {ts : List Token} {trees : List Tree} (h : parse? ts = some trees) :
    tokensOf trees = ts := by
  simpa [tokensAround, tokensOf] using tokensOf_of_parseFrom h

mutual

theorem parseFrom_tokens (tree : Tree) (outer : List (String × List Tree)) (before : List Tree)
    (ts : List Token) :
    parseFrom outer before (tree.tokens ++ ts) = parseFrom outer (tree :: before) ts :=
  match tree with
  | number _ => rfl
  | symbol _ => rfl
  | list opening closing elements => by
    have h := parseFrom_tokensOf elements ((opening, before) :: outer) []
      (⟨.closing, closing⟩ :: ts)
    simpa [tokens, parseFrom] using h

theorem parseFrom_tokensOf (trees : List Tree) (outer : List (String × List Tree))
    (before : List Tree) (ts : List Token) :
    parseFrom outer before (tokensOf trees ++ ts) =
      parseFrom outer (trees.reverse ++ before) ts :=
  match trees with
  | [] => rfl
  | tree :: trees => by
    have hfirst := parseFrom_tokens tree outer before (tokensOf trees ++ ts)
    have hrest := parseFrom_tokensOf trees outer (tree :: before) ts
    simpa [tokensOf] using hfirst.trans hrest

end

theorem parse?_tokensOf (trees : List Tree) : parse? (tokensOf trees) = some trees := by
  have h := parseFrom_tokensOf trees [] [] []
  simpa [parse?, parseFrom] using h

theorem tokensOf_injective {xs ys : List Tree} (h : tokensOf xs = tokensOf ys) : xs = ys := by
  have hx := parse?_tokensOf xs
  rw [h, parse?_tokensOf] at hx
  exact (Option.some.inj hx).symm

theorem isSome_parseFrom_iff {outer : List (String × List Tree)} {before : List Tree}
    {ts : List Token} :
    (parseFrom outer before ts).isSome ↔ openAfter outer.length ts = some 0 := by
  induction ts generalizing outer before with
  | nil => cases outer <;> simp [parseFrom, openAfter]
  | cons t ts ih =>
    obtain ⟨kind, text⟩ := t
    cases kind with
    | number => exact ih
    | symbol => exact ih
    | opening => exact ih
    | closing =>
      cases outer with
      | nil => simp [parseFrom, openAfter]
      | cons _ _ => exact ih

theorem isSome_parse?_iff {ts : List Token} : (parse? ts).isSome ↔ Balanced ts :=
  isSome_parseFrom_iff

theorem balanced_tokensOf (trees : List Tree) : Balanced (tokensOf trees) := by
  rw [← isSome_parse?_iff, parse?_tokensOf]
  rfl

theorem exists_tokensOf_iff {ts : List Token} : (∃ trees, tokensOf trees = ts) ↔ Balanced ts := by
  constructor
  · intro h
    obtain ⟨trees, rfl⟩ := h
    exact balanced_tokensOf trees
  · intro h
    obtain ⟨trees, ht⟩ := Option.isSome_iff_exists.mp (isSome_parse?_iff.mpr h)
    exact ⟨trees, tokensOf_of_parse? ht⟩

end Tree
end FlatLisp
