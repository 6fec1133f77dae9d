import FlatLisp.Proofs.Nesting.Matching
import FlatLisp.Proofs.Tree.Split

/-! Operands as a decomposition of tokens. Tokens fall apart into atoms and complete forms in one
way at most, and they do so exactly if as many parens are closed as opened and no paren closes
nothing. -/
namespace FlatLisp.Nesting

variable {x tokens later : List Token} {xs ys : List (List Token)}

/-- The last token is the paren that matches the first one, which no earlier paren does. -/
def Complete (x : List Token) : Prop := ∃ last, Matches x 0 last ∧ last + 1 = x.length

theorem isForm_iff_complete : IsForm x ↔ Complete x := by
  constructor
  · intro h
    obtain ⟨last, hmatch, hl⟩ := h.matchParen_eq
    exact ⟨last, matchParen_eq_ok_iff.mp hmatch, hl⟩
  · rintro ⟨last, hmatch, hl⟩
    exact isForm_of_matchParen (matchParen_eq_ok_iff.mpr hmatch) hl

/-- The lists are atoms and complete forms that, written one after another, are the tokens. -/
structure Decomposes (tokens : List Token) (xs : List (List Token)) : Prop where
  flatten : xs.flatten = tokens
  operand : ∀ x ∈ xs, (∃ t, x = [t] ∧ ¬ t.isOpen ∧ ¬ t.isClose) ∨ Complete x

theorem Decomposes.isOperand (h : Decomposes tokens xs) (hx : x ∈ xs) : IsOperand x :=
  (h.operand x hx).imp_right isForm_iff_complete.mpr

theorem Decomposes.append (h : Decomposes tokens xs) (h' : Decomposes later ys) :
    Decomposes (tokens ++ later) (xs ++ ys) where
  flatten := by rw [List.flatten_append, h.flatten, h'.flatten]
  operand := List.forall_mem_append.mpr ⟨h.operand, h'.operand⟩

theorem splitOperands_eq_ok_iff_decomposes :
    splitOperands tokens = .ok xs ↔ Decomposes tokens xs := by
  constructor
  · intro h
    refine ⟨flatten_of_splitOperands h, fun x hx => ?_⟩
    exact (isOperand_of_splitOperands h hx).imp_right isForm_iff_complete.mp
  · intro h
    rw [← h.flatten]
    exact splitOperands_flatten fun x => h.isOperand

theorem exists_splitOperands_iff : (∃ xs, splitOperands tokens = .ok xs) ↔ Balanced tokens := by
  refine ⟨?_, exists_splitOperands⟩
  rintro ⟨xs, h⟩
  rw [← flatten_of_splitOperands h]
  exact balanced_flatten fun x => isOperand_of_splitOperands h

/-- Between the parens of a complete form stand operands again. -/
theorem Complete.exists_inner (h : Complete tokens) :
    ∃ inner xs, enclosed? tokens = some inner ∧ splitOperands inner = .ok xs := by
  obtain ⟨first, inner, last, rfl, ho, hc, hb⟩ := isForm_iff_complete.mpr h
  obtain ⟨xs, hxs⟩ := exists_splitOperands hb
  exact ⟨inner, xs, enclosed?_eq_some_iff.mpr ⟨first, last, rfl, ho, hc⟩, hxs⟩

theorem kind_of_splitOperands {f : Fault} (h : splitOperands tokens = .error f) :
    f.kind = .unbalancedParentheses := by
  simp only [splitOperands] at h
  split at h
  · cases h
  · rename_i cause _
    obtain rfl := Except.error.inj h
    cases cause <;> rfl

/-- Splitting finds the one decomposition that tokens have, and finds it if and only if the depth of
the parens never goes negative and ends at zero. So a split goes on with a second one behind it and
into the forms, and it fails in no other way than at parens that are not balanced. -/
theorem splitOperands_unique_decomposition (tokens : List Token) :
    ((∃ xs, splitOperands tokens = .ok xs) ↔
      (∀ before, before <+: tokens →
        before.countP Token.isClose ≤ before.countP Token.isOpen) ∧
      tokens.countP Token.isOpen = tokens.countP Token.isClose) ∧
    (∀ xs, splitOperands tokens = .ok xs ↔ Decomposes tokens xs) ∧
    (∀ later xs ys, splitOperands tokens = .ok xs → splitOperands later = .ok ys →
      splitOperands (tokens ++ later) = .ok (xs ++ ys)) ∧
    (Complete tokens → ∃ inner xs, enclosed? tokens = some inner ∧ splitOperands inner = .ok xs) ∧
    ∀ f, splitOperands tokens = .error f → f.kind = .unbalancedParentheses := by
  refine ⟨?_, fun xs => splitOperands_eq_ok_iff_decomposes, ?_, Complete.exists_inner,
    fun f => kind_of_splitOperands⟩
  · rw [exists_splitOperands_iff, balanced_iff]
  · simp only [splitOperands_eq_ok_iff_decomposes]
    exact fun later xs ys => Decomposes.append

/-- A form with a form in it, and an empty one. -/
def nested : List Token :=
  [⟨.opening, "("⟩, ⟨.symbol, "f"⟩, ⟨.opening, "("⟩, ⟨.closing, ")"⟩, ⟨.closing, ")"⟩]

/-- An atom behind a form that closes. -/
def atomBehind : List Token := [⟨.opening, "("⟩, ⟨.closing, ")"⟩, ⟨.number, "1"⟩]

theorem splitOperands_unique_decomposition_nested :
    Complete nested ∧ (∃ inner xs, enclosed? nested = some inner ∧ splitOperands inner = .ok xs) ∧
    Decomposes (nested ++ atomBehind)
      [nested, [⟨.opening, "("⟩, ⟨.closing, ")"⟩], [⟨.number, "1"⟩]] ∧
    splitOperands (⟨.closing, ")"⟩ :: nested) = .error (.unbalanced (.unexpectedClose 0)) ∧
    (Fault.unbalanced (.unexpectedClose 0)).kind = .unbalancedParentheses := by
  have hcomplete : Complete nested := ⟨4, matchParen_eq_ok_iff.mp rfl, rfl⟩
  have hstray : splitOperands (⟨.closing, ")"⟩ :: nested) =
      .error (.unbalanced (.unexpectedClose 0)) := rfl
  obtain ⟨-, -, happend, hinner, -⟩ := splitOperands_unique_decomposition nested
  obtain ⟨-, hdecomposes, -⟩ := splitOperands_unique_decomposition (nested ++ atomBehind)
  obtain ⟨-, -, -, -, hfails⟩ := splitOperands_unique_decomposition (⟨.closing, ")"⟩ :: nested)
  exact ⟨hcomplete, hinner hcomplete, (hdecomposes _).mp (happend atomBehind _ _ rfl rfl), hstray,
    hfails _ hstray⟩

end FlatLisp.Nesting
