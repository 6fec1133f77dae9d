import FlatLisp.Proofs.Nesting.Count
import FlatLisp.Proofs.Nesting.Form
import FlatLisp.Token.Lexer

/-! Matching parens by their numbers. The paren that matches an open one stands where, for the first
time behind it, as many parens have been closed as opened. -/
namespace FlatLisp.Nesting

variable {t : Token} {ts us tokens : List Token} {depth opened index close : Nat}

theorem not_isClose_of_isOpen (ho : t.isOpen) : ¬ t.isClose := by
  simp [isClose_iff, isOpen_iff.mp ho]

theorem not_isOpen_of_isClose (hc : t.isClose) : ¬ t.isOpen := by
  simp [isOpen_iff, isClose_iff.mp hc]

/-- How many parens are open is told by their numbers alone. -/
theorem openAfter_eq_some_iff :
    openAfter depth ts = some opened ↔ Leaves Token.isOpen Token.isClose depth opened ts := by
  induction ts generalizing depth with
  | nil => simp [openAfter, leaves_nil_iff]
  | cons t ts ih =>
    cases hk : t.kind with
    | opening =>
      have ho := isOpen_iff.mpr hk
      simp only [openAfter, hk, ih, leaves_opening_iff ho (not_isClose_of_isOpen ho)]
    | closing =>
      have hc := isClose_iff.mpr hk
      have ho := not_isOpen_of_isClose hc
      cases depth with
      | zero => simp only [openAfter, hk, reduceCtorEq, not_leaves_closing ho hc]
      | succ depth => simp only [openAfter, hk, ih, leaves_closing_iff ho hc]
    | number | symbol =>
      rw [leaves_other_iff (by simp [isOpen_iff, hk]) (by simp [isClose_iff, hk])]
      simp only [openAfter, hk, ih]

theorem balanced_iff : Balanced tokens ↔
    (∀ before, before <+: tokens →
      before.countP Token.isClose ≤ before.countP Token.isOpen) ∧
    tokens.countP Token.isOpen = tokens.countP Token.isClose := by
  rw [Balanced, openAfter_eq_some_iff]
  simp [Leaves, NeverNegative]

/-- Where no paren closes the last open one, it stays open. -/
theorem closeFrom_eq_none_iff :
    closeFrom index depth ts = none ↔ NeverNegative Token.isOpen Token.isClose depth ts := by
  induction ts generalizing index depth with
  | nil => simp [closeFrom, neverNegative_nil]
  | cons t ts ih =>
    cases hk : t.kind with
    | opening =>
      have ho := isOpen_iff.mpr hk
      simp only [closeFrom, hk, ih, neverNegative_opening_iff ho (not_isClose_of_isOpen ho)]
    | closing =>
      have hc := isClose_iff.mpr hk
      have ho := not_isOpen_of_isClose hc
      cases depth with
      | zero => simp only [closeFrom, hk, reduceCtorEq, not_neverNegative_closing ho hc]
      | succ depth => simp only [closeFrom, hk, ih, neverNegative_closing_iff ho hc]
    | number | symbol =>
      rw [neverNegative_other_iff (by simp [isOpen_iff, hk]) (by simp [isClose_iff, hk])]
      simp only [closeFrom, hk, ih]

/-- There is an open paren at the index. -/
def OpenAt (tokens : List Token) (index : Nat) : Prop :=
  ∃ t, tokens[index]? = some t ∧ t.isOpen

/-- From the one index to the other, both included, as many parens are opened as closed. -/
def EvenBetween (tokens : List Token) (first last : Nat) : Prop :=
  (tokens.extract first (last + 1)).countP Token.isOpen =
    (tokens.extract first (last + 1)).countP Token.isClose

instance (tokens : List Token) (first last : Nat) : Decidable (EvenBetween tokens first last) :=
  inferInstanceAs (Decidable (_ = _))

/-- There is an open paren at the one index, and the other is the least one above it up to which the
parens are even. -/
structure Matches (tokens : List Token) (index close : Nat) : Prop where
  openAt : OpenAt tokens index
  above : index < close
  inside : close < tokens.length
  even : EvenBetween tokens index close
  least : ∀ j, index < j → j < close → ¬ EvenBetween tokens index j

theorem Matches.unique {other : Nat} (h : Matches tokens index close)
    (h' : Matches tokens index other) : close = other := by
  have hle : ¬ other < close := fun hlt => h.least other h'.above hlt h'.even
  have hge : ¬ close < other := fun hlt => h'.least close h.above hlt h.even
  omega

theorem openAt_iff : OpenAt tokens index ↔ ∃ t ts, tokens.drop index = t :: ts ∧ t.isOpen := by
  simp only [OpenAt, ← List.head?_drop, List.head?_eq_some_iff]
  constructor
  · rintro ⟨t, ⟨ts, hd⟩, ho⟩
    exact ⟨t, ts, hd, ho⟩
  · rintro ⟨t, ts, hd, ho⟩
    exact ⟨t, ⟨ts, hd⟩, ho⟩

section Behind
variable (hd : tokens.drop index = t :: ts) (ho : t.isOpen)
include hd

/-- Behind the open paren, one more has to be closed than is opened. -/
theorem evenBetween_iff (ho : t.isOpen) (k : Nat) :
    EvenBetween tokens index (index + 1 + k) ↔
      (ts.take (k + 1)).countP Token.isOpen + 1 = (ts.take (k + 1)).countP Token.isClose := by
  have hlast : index + 1 + k + 1 - index = k + 1 + 1 := by omega
  simp only [EvenBetween, List.extract_eq_take_drop, hd, hlast, List.take_succ_cons,
    List.countP_cons_of_pos ho, List.countP_cons_of_neg (not_isClose_of_isOpen ho)]

theorem length_eq_of_drop : tokens.length = index + 1 + ts.length := by
  have hlength := congrArg List.length hd
  simp only [List.length_drop, List.length_cons] at hlength
  omega

include ho

theorem matches_of_closeFrom (h : closeFrom (index + 1) 0 ts = some close) :
    Matches tokens index close := by
  obtain ⟨before, last, after, rfl, hlast, hb, rfl⟩ := closeFrom_eq_some h
  obtain ⟨hnever, hcount⟩ := openAfter_eq_some_iff.mp hb
  refine ⟨openAt_iff.mpr ⟨t, _, hd, ho⟩, by omega, ?_, ?_, ?_⟩
  · rw [length_eq_of_drop hd]
    simp
  · have htake : (before ++ last :: after).take (before.length + 1) = before ++ [last] := by
      rw [← List.singleton_append, ← List.append_assoc]
      exact List.take_left' (by simp)
    rw [evenBetween_iff hd ho, htake, List.countP_append, List.countP_append,
      List.countP_cons_of_neg (not_isOpen_of_isClose hlast), List.countP_cons_of_pos hlast]
    simp only [List.countP_nil]
    omega
  · intro j hj hlt
    obtain ⟨i, rfl⟩ : ∃ i, j = index + 1 + i := ⟨j - (index + 1), by omega⟩
    have htake : (before ++ last :: after).take (i + 1) = before.take (i + 1) :=
      List.take_append_of_le_length (by omega)
    have hle := hnever _ (List.take_prefix (i + 1) before)
    rw [evenBetween_iff hd ho, htake]
    omega

theorem not_evenBetween_of_closeFrom (h : closeFrom (index + 1) 0 ts = none) {j : Nat}
    (hj : index < j) : ¬ EvenBetween tokens index j := by
  obtain ⟨i, rfl⟩ : ∃ i, j = index + 1 + i := ⟨j - (index + 1), by omega⟩
  have hle := closeFrom_eq_none_iff.mp h _ (List.take_prefix (i + 1) ts)
  rw [evenBetween_iff hd ho]
  omega

theorem closeFrom_eq_some_iff_matches :
    closeFrom (index + 1) 0 ts = some close ↔ Matches tokens index close := by
  refine ⟨matches_of_closeFrom hd ho, fun h => ?_⟩
  cases hc : closeFrom (index + 1) 0 ts with
  | none => exact absurd h.even (not_evenBetween_of_closeFrom hd ho hc h.above)
  | some found => rw [(matches_of_closeFrom hd ho hc).unique h]

end Behind

/-- The three ways in which the search for the matching paren ends. -/
theorem matchParen_cases (tokens : List Token) (index : Nat) :
    (¬ OpenAt tokens index ∧ matchParen tokens index = .error (.malformed (.noOpenParen index))) ∨
    (OpenAt tokens index ∧ (∀ close, ¬ Matches tokens index close) ∧
      matchParen tokens index = .error (.unbalanced (.unmatchedOpen index))) ∨
    ∃ close, Matches tokens index close ∧ matchParen tokens index = .ok close := by
  cases hd : tokens.drop index with
  | nil => exact .inl ⟨by simp [openAt_iff, hd], by simp [matchParen, hd]⟩
  | cons t ts =>
    by_cases ho : t.isOpen
    · have hmatches : ∀ close,
          closeFrom (index + 1) 0 ts = some close ↔ Matches tokens index close :=
        fun _ => closeFrom_eq_some_iff_matches hd ho
      right
      cases hc : closeFrom (index + 1) 0 ts with
      | none =>
        refine .inl ⟨openAt_iff.mpr ⟨t, ts, hd, ho⟩, fun close h => ?_, by simp [matchParen, *]⟩
        cases hc.symm.trans ((hmatches close).mpr h)
      | some close => exact .inr ⟨close, (hmatches close).mp hc, by simp [matchParen, *]⟩
    · exact .inl ⟨by simp [openAt_iff, hd, ho], by simp [matchParen, hd, ho]⟩

theorem matchParen_eq_ok_iff :
    matchParen tokens index = .ok close ↔ Matches tokens index close := by
  obtain ⟨hno, he⟩ | ⟨-, hnone, he⟩ | ⟨found, hfound, he⟩ := matchParen_cases tokens index
  · rw [he]
    exact ⟨nofun, fun h => absurd h.openAt hno⟩
  · rw [he]
    exact ⟨nofun, fun h => absurd h (hnone close)⟩
  · rw [he]
    constructor
    · rintro ⟨⟩
      exact hfound
    · intro h
      rw [hfound.unique h]

theorem matchParen_malformed_iff :
    (∃ f, matchParen tokens index = .error f ∧ f.kind = .malformedExpression) ↔
      ¬ OpenAt tokens index := by
  constructor
  · rintro ⟨f, hf, hk⟩ hopen
    obtain ⟨hno, -⟩ | ⟨-, -, he⟩ | ⟨close, -, he⟩ := matchParen_cases tokens index
    · exact hno hopen
    · obtain rfl := Except.error.inj (he.symm.trans hf)
      cases hk
    · cases he.symm.trans hf
  · intro hno
    obtain ⟨-, he⟩ | ⟨hopen, -⟩ | ⟨close, hclose, -⟩ := matchParen_cases tokens index
    · exact ⟨_, he, rfl⟩
    · exact absurd hopen hno
    · exact absurd hclose.openAt hno

theorem matchParen_unbalanced_iff :
    (∃ f, matchParen tokens index = .error f ∧ f.kind = .unbalancedParentheses) ↔
      OpenAt tokens index ∧ ∀ close, ¬ Matches tokens index close := by
  constructor
  · rintro ⟨f, hf, hk⟩
    obtain ⟨-, he⟩ | ⟨hopen, hnone, -⟩ | ⟨close, -, he⟩ := matchParen_cases tokens index
    · obtain rfl := Except.error.inj (he.symm.trans hf)
      cases hk
    · exact ⟨hopen, hnone⟩
    · cases he.symm.trans hf
  · rintro ⟨hopen, hnone⟩
    obtain ⟨hno, -⟩ | ⟨-, -, he⟩ | ⟨close, hclose, -⟩ := matchParen_cases tokens index
    · exact absurd hopen hno
    · exact ⟨_, he, rfl⟩
    · exact absurd hclose (hnone close)

/-- Only the kinds of the tokens are looked at. -/
theorem closeFrom_congr (h : us.map Token.kind = ts.map Token.kind) :
    closeFrom index depth us = closeFrom index depth ts := by
  induction ts generalizing us index depth with
  | nil => rw [List.map_eq_nil_iff.mp h]
  | cons t ts ih =>
    obtain ⟨u, us, rfl, hk, hus⟩ := List.map_eq_cons_iff.mp h
    simp only [closeFrom, hk, ih hus]

theorem matchParen_congr {others : List Token}
    (h : (others.drop index).map Token.kind = (tokens.drop index).map Token.kind) :
    matchParen others index = matchParen tokens index := by
  simp only [matchParen]
  cases hd : tokens.drop index with
  | nil =>
    rw [hd] at h
    rw [List.map_eq_nil_iff.mp h]
  | cons t ts =>
    rw [hd] at h
    obtain ⟨u, us, hu, hk, hus⟩ := List.map_eq_cons_iff.mp h
    have ho : u.isOpen = t.isOpen := by simp only [Token.isOpen, hk]
    simp only [hu, ho, closeFrom_congr hus]

/-- The index at which a count of open parens comes down to zero, where the count is unsigned:
`none` if it has to be taken below zero. -/
def countFrom (index depth : Nat) : List Token → Option (Option Nat)
  | [] => some none
  | t :: ts =>
    match t.kind, depth with
    | .opening, _ => countFrom (index + 1) (depth + 1) ts
    | .closing, 0 => none
    | .closing, 1 => some (some index)
    | .closing, depth + 2 => countFrom (index + 1) (depth + 1) ts
    | _, _ => countFrom (index + 1) depth ts

/-- The search for the matching paren with such a count, which begins at the open paren itself. -/
def countedMatch (tokens : List Token) (index : Nat) : Option (Except Fault Nat) :=
  match tokens.drop index with
  | [] => some (.error (.malformed (.noOpenParen index)))
  | t :: ts =>
    if t.isOpen then
      (countFrom index 0 (t :: ts)).map fun
        | some close => .ok close
        | none => .error (.unbalanced (.unmatchedOpen index))
    else some (.error (.malformed (.noOpenParen index)))

/-- Behind the open paren the count is positive until the search ends. -/
theorem countFrom_succ (index depth : Nat) (ts : List Token) :
    countFrom index (depth + 1) ts = some (closeFrom index depth ts) := by
  induction ts generalizing index depth with
  | nil => rfl
  | cons t ts ih =>
    cases hk : t.kind with
    | opening => simp only [countFrom, closeFrom, hk, ih]
    | closing =>
      cases depth with
      | zero => simp only [countFrom, closeFrom, hk]
      | succ depth => simp only [countFrom, closeFrom, hk, ih]
    | number | symbol => simp only [countFrom, closeFrom, hk, ih]

theorem countedMatch_eq (tokens : List Token) (index : Nat) :
    countedMatch tokens index = some (matchParen tokens index) := by
  simp only [countedMatch, matchParen]
  cases hd : tokens.drop index with
  | nil => rfl
  | cons t ts =>
    by_cases ho : t.isOpen
    · have hcount : countFrom index 0 (t :: ts) = some (closeFrom (index + 1) 0 ts) := by
        rw [← countFrom_succ]
        simp only [countFrom, isOpen_iff.mp ho]
      cases hc : closeFrom (index + 1) 0 ts <;> simp [ho, hcount, hc]
    · simp [ho]

/-- Where tokens close all parens, the paren that matches one of them is among those behind it. -/
theorem exists_closeFrom {before after : List Token} (ho : t.isOpen)
    (h : openAfter depth (before ++ t :: ts) = some 0) (start : Nat) :
    ∃ close, closeFrom start 0 (ts ++ after) = some close ∧ close < start + ts.length := by
  rw [openAfter_append] at h
  obtain ⟨outer, -, h⟩ := Option.bind_eq_some_iff.mp h
  simp only [openAfter, isOpen_iff.mp ho] at h
  cases hc : closeFrom start 0 ts with
  | none =>
    -- the paren would stay open, and those around it as well
    have hnever := closeFrom_eq_none_iff.mp hc ts List.prefix_rfl
    have hcount := (openAfter_eq_some_iff.mp h).2
    omega
  | some close =>
    obtain ⟨inner, last, rest, rfl, hlast, hb, rfl⟩ := closeFrom_eq_some hc
    refine ⟨start + inner.length, ?_, by simp⟩
    rw [List.append_assoc]
    exact closeFrom_of_openAfter hb hlast (rest ++ after)

/-- An open paren that is behind another one, and not behind the paren that closes that one, is
among the tokens between the two. -/
theorem exists_between {before after : List Token} {u last : Token} {inner : Nat}
    (hd : tokens.drop index = t :: (before ++ last :: after)) (hu : tokens.drop inner = u :: us)
    (hopen : u.isOpen) (hlast : last.isClose) (hlt : index < inner)
    (hle : inner ≤ index + 1 + before.length) :
    ∃ front back, before = front ++ u :: back ∧ us = back ++ last :: after ∧
      inner = index + 1 + front.length := by
  obtain ⟨i, rfl⟩ : ∃ i, inner = index + 1 + i := ⟨inner - (index + 1), by omega⟩
  have hdrop : (before ++ last :: after).drop i = u :: us := by
    rw [← hu, Nat.add_assoc, ← List.drop_drop, hd, Nat.add_comm 1, List.drop_succ_cons]
  have hi : i < before.length := by
    refine Nat.lt_of_not_le fun hge => ?_
    obtain rfl : i = before.length := by omega
    rw [List.drop_left] at hdrop
    obtain ⟨rfl, -⟩ := List.cons.inj hdrop
    exact not_isOpen_of_isClose hlast hopen
  rw [List.drop_append_of_le_length (by omega), List.drop_eq_getElem_cons hi] at hdrop
  obtain ⟨rfl, rfl⟩ := List.cons.inj hdrop
  refine ⟨before.take i, before.drop (i + 1), ?_, rfl, ?_⟩
  · rw [← List.drop_eq_getElem_cons hi, List.take_append_drop]
  · rw [List.length_take_of_le (by omega)]

/-- A paren that is opened between another one and the paren that matches that one is matched before
that one is. -/
theorem Matches.nested_or_disjoint {inner last : Nat} (h : Matches tokens index close)
    (h' : Matches tokens inner last) (hlt : index < inner) : close < inner ∨ last < close := by
  by_cases hover : close < inner
  · exact .inl hover
  · right
    obtain ⟨t, ts, hd, ho⟩ := openAt_iff.mp h.openAt
    obtain ⟨u, us, hu, hopen⟩ := openAt_iff.mp h'.openAt
    obtain ⟨before, final, after, rfl, hfinal, hb, rfl⟩ :=
      closeFrom_eq_some ((closeFrom_eq_some_iff_matches hd ho).mpr h)
    obtain ⟨front, back, rfl, rfl, rfl⟩ := exists_between hd hu hopen hfinal hlt (by omega)
    obtain ⟨found, hfound, hbefore⟩ := exists_closeFrom hopen hb (index + 1 + front.length + 1)
    obtain rfl := ((closeFrom_eq_some_iff_matches hu hopen).mp hfound).unique h'
    rw [List.length_append, List.length_cons]
    omega

/-- The search for the paren that matches the one at an index is exact. It finds the least index up
to which parens are even, if there is an open paren to begin with, and tells the two ways of failing
apart. It looks at nothing in front of the index and at no text, and its count of open parens is
never taken below zero. Two matched ranges that begin at different parens are nested or disjoint. -/
theorem matchParen_exact (tokens : List Token) (index : Nat) :
    (∀ close, matchParen tokens index = .ok close ↔ Matches tokens index close) ∧
    ((∃ f, matchParen tokens index = .error f ∧ f.kind = .malformedExpression) ↔
      ¬ OpenAt tokens index) ∧
    ((∃ f, matchParen tokens index = .error f ∧ f.kind = .unbalancedParentheses) ↔
      OpenAt tokens index ∧ ∀ close, ¬ Matches tokens index close) ∧
    (∀ others : List Token,
      (others.drop index).map Token.kind = (tokens.drop index).map Token.kind →
        matchParen others index = matchParen tokens index) ∧
    countedMatch tokens index = some (matchParen tokens index) ∧
    ∀ close inner last, matchParen tokens index = .ok close → matchParen tokens inner = .ok last →
      index < inner → close < inner ∨ last < close := by
  refine ⟨fun close => matchParen_eq_ok_iff, matchParen_malformed_iff, matchParen_unbalanced_iff,
    fun others => matchParen_congr, countedMatch_eq tokens index, ?_⟩
  intro close inner last h h' hlt
  exact (matchParen_eq_ok_iff.mp h).nested_or_disjoint (matchParen_eq_ok_iff.mp h') hlt

/-- Parens that are spelled like brackets and atoms that are spelled like parens, behind a paren
that closes nothing and in front of one that nothing closes. -/
def misspelled : List Token :=
  [⟨.closing, ")"⟩, ⟨.opening, "["⟩, ⟨.symbol, "("⟩, ⟨.opening, "("⟩, ⟨.closing, "]"⟩,
    ⟨.number, ")"⟩, ⟨.closing, "("⟩, ⟨.opening, "("⟩]

/-- The same kinds from the second token on. -/
def respelled : List Token := Lexer.cut "(( x () 1 )(".toList

theorem matchParen_exact_misspelled :
    (Matches misspelled 1 6 ∧ Matches misspelled 3 4 ∧ (6 < 3 ∨ 4 < 6)) ∧
    matchParen respelled 1 = matchParen misspelled 1 := by
  have houter : matchParen misspelled 1 = .ok 6 := rfl
  have hinner : matchParen misspelled 3 = .ok 4 := rfl
  obtain ⟨hmatches, -, -, hkinds, -, hranges⟩ := matchParen_exact misspelled 1
  refine ⟨⟨(hmatches 6).mp houter, ?_, hranges 6 3 4 houter hinner (by decide)⟩, ?_⟩
  · exact ((matchParen_exact misspelled 3).1 4).mp hinner
  · exact hkinds respelled (by decide +kernel)

end FlatLisp.Nesting
