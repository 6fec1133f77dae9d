import FlatLisp.Proofs.Nesting
import FlatLisp.Proofs.Tree

/-! Forms among tokens. Each operand that is found in a run of tokens is an atom or a form, and what
is evaluated as a form is one. -/
namespace FlatLisp.Nesting

variable {t : Token} {ts x tokens : List Token} {xs : List (List Token)} {depth index close : Nat}

/-- The tokens go from an open paren to the one that matches it. -/
def IsForm (x : List Token) : Prop :=
  ∃ first inner last, x = first :: (inner ++ [last]) ∧ first.isOpen ∧ last.isClose ∧
    Balanced inner

/-- The tokens are one atom or one form. -/
def IsOperand (x : List Token) : Prop := (∃ t, x = [t] ∧ ¬ t.isOpen ∧ ¬ t.isClose) ∨ IsForm x

theorem isOpen_iff : t.isOpen ↔ t.kind = .opening := by simp [Token.isOpen]

theorem isClose_iff : t.isClose ↔ t.kind = .closing := by simp [Token.isClose]

theorem IsOperand.atom (ho : t.kind ≠ .opening) (hc : t.kind ≠ .closing) : IsOperand [t] :=
  .inl ⟨t, rfl, by simpa [isOpen_iff] using ho, by simpa [isClose_iff] using hc⟩

/-- An operand of more than one token is a form. -/
theorem IsOperand.isForm {u : Token} (h : IsOperand (t :: u :: ts)) : IsForm (t :: u :: ts) := by
  obtain ⟨v, hv, -⟩ | hform := h
  · simp at hv
  · exact hform

theorem IsOperand.ne_nil (h : IsOperand x) : x ≠ [] := by
  obtain ⟨t, rfl, -⟩ | ⟨first, inner, last, rfl, -⟩ := h
  · simp
  · simp

theorem IsOperand.not_isOpen (h : IsOperand [t]) : ¬ t.isOpen := by
  obtain ⟨u, hu, ho, -⟩ | ⟨first, inner, last, hx, -⟩ := h
  · obtain rfl : t = u := by simpa using hu
    exact ho
  · simp at hx

theorem openAfter_add {opened : Nat} (h : openAfter depth ts = some opened) (outer : Nat) :
    openAfter (depth + outer) ts = some (opened + outer) := by
  induction ts generalizing depth with
  | nil =>
    obtain rfl : depth = opened := by simpa [openAfter] using h
    rfl
  | cons t ts ih =>
    cases hk : t.kind with
    | closing =>
      cases depth with
      | zero => simp [openAfter, hk] at h
      | succ depth =>
        simp only [openAfter, hk] at h
        rw [Nat.add_right_comm]
        simpa only [openAfter, hk] using ih h
    | opening =>
      simp only [openAfter, hk] at h ⊢
      rw [Nat.add_right_comm]
      exact ih h
    | number | symbol =>
      simp only [openAfter, hk] at h ⊢
      exact ih h

theorem IsForm.balanced (h : IsForm x) : Balanced x := by
  obtain ⟨first, inner, last, rfl, ho, hc, hb⟩ := h
  have hinner : openAfter 1 inner = some 1 := openAfter_add hb 1
  simp [Balanced, openAfter, isOpen_iff.mp ho, isClose_iff.mp hc, openAfter_append, hinner]

theorem IsOperand.balanced (h : IsOperand x) : Balanced x := by
  obtain ⟨t, rfl, ho, hc⟩ | hform := h
  · rw [isOpen_iff] at ho
    rw [isClose_iff] at hc
    cases hk : t.kind <;> simp_all [Balanced, openAfter]
  · exact hform.balanced

theorem balanced_flatten (h : ∀ x ∈ xs, IsOperand x) : Balanced xs.flatten := by
  induction xs with
  | nil => rfl
  | cons x xs ih =>
    obtain ⟨hx, hxs⟩ := List.forall_mem_cons.mp h
    exact hx.balanced.append (ih hxs)

theorem openAfter_concat_opening {body : List Token} (hb : openAfter index body = some depth)
    (ht : t.kind = .opening) : openAfter index (body ++ [t]) = some (depth + 1) := by
  rw [openAfter_append, hb]
  simp [openAfter, ht]

theorem openAfter_concat_closing {body : List Token} (hb : openAfter index body = some (depth + 1))
    (ht : t.kind = .closing) : openAfter index (body ++ [t]) = some depth := by
  rw [openAfter_append, hb]
  simp [openAfter, ht]

theorem openAfter_concat_atom {body : List Token} (hb : openAfter index body = some depth)
    (ho : t.kind ≠ .opening) (hc : t.kind ≠ .closing) :
    openAfter index (body ++ [t]) = some depth := by
  rw [openAfter_append, hb]
  cases hk : t.kind <;> simp_all [openAfter]

/-- Both readers by induction on the tokens. Within a form, `body` are the tokens of it that were
read behind its open paren. -/
theorem isOperand_of_mem_operandsFrom_formFrom (ts : List Token) :
    (∀ index, ∀ x ∈ (operandsFrom index ts).complete, IsOperand x) ∧
    ∀ start first body depth index, first.isOpen → openAfter 0 body = some depth →
      ∀ x ∈ (formFrom start (first :: body).reverse depth index ts).complete, IsOperand x := by
  induction ts with
  | nil => exact ⟨by simp [operandsFrom], by simp [formFrom]⟩
  | cons t ts ih =>
    obtain ⟨operands_ih, form_ih⟩ := ih
    constructor
    · intro index
      have hatom : t.kind ≠ .opening → t.kind ≠ .closing →
          ∀ x ∈ ((operandsFrom (index + 1) ts).cons [t]).complete, IsOperand x := by
        intro ho hc
        exact List.forall_mem_cons.mpr ⟨.atom ho hc, operands_ih _⟩
      cases hk : t.kind with
      | opening =>
        simp only [operandsFrom, hk]
        exact form_ih index t [] 0 (index + 1) (isOpen_iff.mpr hk) rfl
      | closing => simp [operandsFrom, hk]
      | number | symbol =>
        simp only [operandsFrom, hk]
        exact hatom (by simp [hk]) (by simp [hk])
    · intro start first body depth index hf hb
      have hnext := fun depth => form_ih start first (body ++ [t]) depth (index + 1) hf
      have hform : t :: (first :: body).reverse = (first :: (body ++ [t])).reverse := by simp
      cases hk : t.kind with
      | opening =>
        simp only [formFrom, hk, hform]
        exact hnext (depth + 1) (openAfter_concat_opening hb hk)
      | closing =>
        cases depth with
        | zero =>
          simp only [formFrom, hk, hform, List.reverse_reverse]
          refine List.forall_mem_cons.mpr ⟨.inr ?_, operands_ih _⟩
          exact ⟨first, body, t, rfl, hf, isClose_iff.mpr hk, hb⟩
        | succ depth =>
          simp only [formFrom, hk, hform]
          exact hnext depth (openAfter_concat_closing hb hk)
      | number | symbol =>
        simp only [formFrom, hk, hform]
        exact hnext depth (openAfter_concat_atom hb (by simp [hk]) (by simp [hk]))

theorem isOperand_of_mem_operands (h : x ∈ (operands tokens).complete) : IsOperand x :=
  (isOperand_of_mem_operandsFrom_formFrom tokens).1 0 x h

theorem isOperand_of_splitOperands (h : splitOperands tokens = .ok xs) (hx : x ∈ xs) :
    IsOperand x := by
  obtain ⟨rfl, -⟩ : (operands tokens).complete = xs ∧ _ := splitOperands_eq_ok_iff.mp h
  exact isOperand_of_mem_operands hx

theorem RunOf.isOperand {form : List Token} (h : RunOf form xs) (hx : x ∈ xs) : IsOperand x := by
  obtain ⟨inner, -, hs | hs⟩ := h
  · exact isOperand_of_splitOperands hs hx
  · exact isOperand_of_splitOperands hs hx

/-- The paren that is found closes the last of the open ones, and everything in front of it has
been closed before. -/
theorem closeFrom_eq_some (h : closeFrom index depth ts = some close) :
    ∃ before last after, ts = before ++ last :: after ∧ last.isClose ∧
      openAfter depth before = some 0 ∧ close = index + before.length := by
  induction ts generalizing index depth with
  | nil => simp [closeFrom] at h
  | cons t ts ih =>
    -- the token in front of what is found in the rest
    have hcons : ∀ {next}, closeFrom (index + 1) next ts = some close →
        (∀ before, openAfter depth (t :: before) = openAfter next before) →
        ∃ before last after, t :: ts = before ++ last :: after ∧ last.isClose ∧
          openAfter depth before = some 0 ∧ close = index + before.length := by
      intro next hfound hopen
      obtain ⟨before, last, after, rfl, hl, hb, rfl⟩ := ih hfound
      refine ⟨t :: before, last, after, rfl, hl, (hopen before).trans hb, ?_⟩
      simp only [List.length_cons]
      omega
    cases hk : t.kind with
    | opening =>
      simp only [closeFrom, hk] at h
      exact hcons h fun before => by simp [openAfter, hk]
    | closing =>
      cases depth with
      | zero =>
        obtain rfl : index = close := by simpa [closeFrom, hk] using h
        exact ⟨[], t, ts, rfl, isClose_iff.mpr hk, rfl, rfl⟩
      | succ depth =>
        simp only [closeFrom, hk] at h
        exact hcons h fun before => by simp [openAfter, hk]
    | number | symbol =>
      simp only [closeFrom, hk] at h
      exact hcons h fun before => by simp [openAfter, hk]

/-- The paren that matches the first token is the end of a form. -/
theorem exists_form_of_matchParen (h : matchParen tokens 0 = .ok close) :
    ∃ form rest, tokens = form ++ rest ∧ IsForm form ∧ form.length = close + 1 := by
  cases tokens with
  | nil => simp [matchParen] at h
  | cons t ts =>
    simp only [matchParen, List.drop_zero] at h
    split at h
    · split at h
      · rename_i hopen _ found hfound
        obtain rfl : found = close := by simpa using h
        obtain ⟨before, last, after, rfl, hlast, hb, rfl⟩ := closeFrom_eq_some hfound
        refine ⟨t :: (before ++ [last]), after, by simp, ?_, ?_⟩
        · exact ⟨t, before, last, rfl, hopen, hlast, hb⟩
        · simp only [List.length_cons, List.length_append, List.length_nil]
          omega
      · cases h
    · cases h

theorem isForm_of_matchParen (h : matchParen tokens 0 = .ok close)
    (hl : close + 1 = tokens.length) : IsForm tokens := by
  obtain ⟨form, rest, rfl, hform, hlength⟩ := exists_form_of_matchParen h
  rw [List.length_append] at hl
  obtain rfl : rest = [] := List.length_eq_zero_iff.mp (by omega)
  simpa using hform

/-- Where some tokens close all parens, a close paren behind them is found. -/
theorem closeFrom_of_openAfter {last : Token} (h : openAfter depth ts = some 0)
    (hl : last.isClose) (after : List Token) :
    closeFrom index depth (ts ++ last :: after) = some (index + ts.length) := by
  induction ts generalizing index depth with
  | nil =>
    obtain rfl : depth = 0 := by simpa [openAfter] using h
    simp [closeFrom, isClose_iff.mp hl]
  | cons t ts ih =>
    rw [show index + (t :: ts).length = index + 1 + ts.length by simp; omega]
    cases hk : t.kind with
    | closing =>
      cases depth with
      | zero => simp [openAfter, hk] at h
      | succ depth =>
        simp only [openAfter, hk] at h
        simpa [closeFrom, hk] using ih h
    | opening | number | symbol =>
      simp only [openAfter, hk] at h
      simpa [closeFrom, hk] using ih h

theorem IsForm.matchParen_eq (h : IsForm x) :
    ∃ close, matchParen x 0 = .ok close ∧ close + 1 = x.length := by
  obtain ⟨first, inner, last, rfl, ho, hl, hb⟩ := h
  refine ⟨1 + inner.length, ?_, by simp; omega⟩
  simp only [matchParen, List.drop_zero, ho, if_true, closeFrom_of_openAfter hb hl []]

theorem not_isForm_of_closeFrom (h : closeFrom index 0 ts = none) (hx : x <+: t :: ts) :
    ¬ IsForm x := by
  rintro ⟨first, inner, last, rfl, -, hl, hb⟩
  obtain ⟨after, he⟩ := hx
  obtain ⟨-, rfl⟩ : first = t ∧ inner ++ last :: after = ts := by simpa using he
  rw [closeFrom_of_openAfter hb hl after] at h
  cases h

/-- What is wrong with tokens, the first of which has the given index: they start with a close
paren, or else with an open one but not with a form. -/
inductive Stops (index : Nat) : List Token → Break → Prop
  | strayClose {paren : Token} {after : List Token} :
      paren.isClose → Stops index (paren :: after) (.strayClose index paren)
  | unmatchedOpen {t : Token} {after : List Token} :
      t.isOpen → (∀ x, x <+: t :: after → ¬ IsForm x) →
        Stops index (t :: after) (.unmatchedOpen index)

/-- Both readers by induction on the tokens. A reader within a form either never comes to its end or
goes on behind it. -/
theorem stops_of_operandsFrom_formFrom {cause : Break} (ts : List Token) :
    (∀ start, (operandsFrom start ts).cutShort = some cause →
      ∃ unread, ts = (operandsFrom start ts).complete.flatten ++ unread ∧
        Stops (start + (operandsFrom start ts).complete.flatten.length) unread cause) ∧
    ∀ start form depth index, index = start + form.length →
      (formFrom start form depth index ts).cutShort = some cause →
        ((formFrom start form depth index ts).complete = [] ∧ cause = .unmatchedOpen start ∧
          closeFrom index depth ts = none) ∨
        ∃ unread,
          form.reverse ++ ts = (formFrom start form depth index ts).complete.flatten ++ unread ∧
          Stops (start + (formFrom start form depth index ts).complete.flatten.length) unread
            cause := by
  induction ts with
  | nil =>
    refine ⟨by simp [operandsFrom], ?_⟩
    intro start form depth index _ h
    exact .inl ⟨rfl, (Option.some.inj h).symm, rfl⟩
  | cons t ts ih =>
    obtain ⟨operands_ih, form_ih⟩ := ih
    constructor
    · intro start h
      cases hk : t.kind with
      | opening =>
        simp only [operandsFrom, hk] at h ⊢
        obtain ⟨hnil, rfl, hc⟩ | hrest := form_ih start [t] 0 (start + 1) rfl h
        · refine ⟨t :: ts, by simp [hnil], ?_⟩
          simpa [hnil] using
            Stops.unmatchedOpen (isOpen_iff.mpr hk) fun x hx => not_isForm_of_closeFrom hc hx
        · exact hrest
      | closing =>
        obtain rfl : Break.strayClose start t = cause := by simpa [operandsFrom, hk] using h
        refine ⟨t :: ts, by simp [operandsFrom, hk], ?_⟩
        simpa [operandsFrom, hk] using Stops.strayClose (isClose_iff.mpr hk)
      | number | symbol =>
        simp only [operandsFrom, hk, cutShort_cons] at h
        obtain ⟨unread, hunread, hstops⟩ := operands_ih (start + 1) h
        refine ⟨unread, by simpa [operandsFrom, hk] using hunread, ?_⟩
        simpa [operandsFrom, hk, Nat.add_assoc, Nat.add_comm 1] using hstops
    · intro start form depth index hi h
      have hnext := fun depth => form_ih start (t :: form) depth (index + 1)
        (by simp only [hi, List.length_cons, Nat.add_assoc])
      simp only [List.reverse_cons, List.append_assoc, List.singleton_append] at hnext
      cases hk : t.kind with
      | closing =>
        cases depth with
        | zero =>
          simp only [formFrom, hk, cutShort_cons] at h
          obtain ⟨unread, hunread, hstops⟩ := operands_ih (index + 1) h
          refine .inr ⟨unread, by simpa [formFrom, hk] using hunread, ?_⟩
          simpa [formFrom, hk, hi, Nat.add_assoc, Nat.add_comm 1] using hstops
        | succ depth =>
          simp only [formFrom, hk] at h ⊢
          simpa only [closeFrom, hk] using hnext depth h
      | opening | number | symbol =>
        simp only [formFrom, hk] at h ⊢
        simpa only [closeFrom, hk] using hnext _ h

/-- Behind the complete operands, the tokens stop with what cuts them short. -/
theorem stops_of_cutShort {cause : Break} (h : (operands tokens).cutShort = some cause) :
    ∃ unread, tokens = (operands tokens).complete.flatten ++ unread ∧
      Stops (operands tokens).complete.flatten.length unread cause := by
  obtain ⟨unread, hunread, hstops⟩ := (stops_of_operandsFrom_formFrom tokens).1 0 h
  exact ⟨unread, hunread, by simpa [operands] using hstops⟩

/-- The close paren that cuts operands short is one of the tokens. -/
theorem mem_of_strayClose {paren : Token}
    (h : (operands tokens).cutShort = some (.strayClose index paren)) : paren ∈ tokens := by
  obtain ⟨unread, hunread, hstops⟩ := stops_of_cutShort h
  generalize (operands tokens).complete = complete at hunread hstops
  cases hstops with
  | strayClose _ =>
    rw [hunread]
    simp

end FlatLisp.Nesting
