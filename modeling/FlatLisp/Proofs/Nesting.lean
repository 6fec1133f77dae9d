import FlatLisp.Token.Nesting

/-! What the operands of a run of tokens have to do with the run: written one after another they
are its beginning, and all of it if nothing cuts them short. -/
namespace FlatLisp.Nesting

@[simp] theorem complete_cons (x : List Token) (rest : Operands) :
    (rest.cons x).complete = x :: rest.complete := rfl

@[simp] theorem cutShort_cons (x : List Token) (rest : Operands) :
    (rest.cons x).cutShort = rest.cutShort := rfl

/-- The operands and what stays unread are the tokens. Within a form, the tokens of the form that
were read come first. -/
def Covers (tokens : List Token) (found : Operands) : Prop :=
  ∃ unread, found.complete.flatten ++ unread = tokens ∧ (found.cutShort = none → unread = [])

theorem Covers.cons {tokens : List Token} {found : Operands} (h : Covers tokens found)
    (x : List Token) : Covers (x ++ tokens) (found.cons x) := by
  obtain ⟨unread, he, hn⟩ := h
  exact ⟨unread, by simp [he], hn⟩

theorem covers_of_cutShort {tokens : List Token} (cause : Break) :
    Covers tokens ⟨[], some cause⟩ := ⟨tokens, rfl, by simp⟩

/-- Both readers by induction on the tokens, since each of them goes over to the other. -/
theorem covers_operandsFrom_formFrom (tokens : List Token) :
    (∀ index, Covers tokens (operandsFrom index tokens)) ∧
    ∀ start form depth index,
      Covers (form.reverse ++ tokens) (formFrom start form depth index tokens) := by
  induction tokens with
  | nil => exact ⟨fun _ => ⟨[], rfl, fun _ => rfl⟩, fun _ _ _ _ => covers_of_cutShort _⟩
  | cons t ts ih =>
    obtain ⟨operands_ih, form_ih⟩ := ih
    constructor
    · intro index
      cases hk : t.kind with
      | opening => simpa [operandsFrom, hk] using form_ih index [t] 0 (index + 1)
      | closing => simpa [operandsFrom, hk] using covers_of_cutShort _
      | number => simpa [operandsFrom, hk] using (operands_ih (index + 1)).cons [t]
      | symbol => simpa [operandsFrom, hk] using (operands_ih (index + 1)).cons [t]
    · intro start form depth index
      have hnext := fun depth => form_ih start (t :: form) depth (index + 1)
      simp only [List.reverse_cons, List.append_assoc, List.singleton_append] at hnext
      cases hk : t.kind with
      | opening => simpa [formFrom, hk] using hnext (depth + 1)
      | closing =>
        cases depth with
        | zero => simpa [formFrom, hk] using (operands_ih (index + 1)).cons (t :: form).reverse
        | succ depth => simpa [formFrom, hk] using hnext depth
      | number => simpa [formFrom, hk] using hnext depth
      | symbol => simpa [formFrom, hk] using hnext depth

theorem operands_isPrefix (tokens : List Token) :
    (operands tokens).complete.flatten <+: tokens := by
  obtain ⟨unread, he, -⟩ := (covers_operandsFrom_formFrom tokens).1 0
  exact ⟨unread, he⟩

theorem splitOperands_eq_ok_iff {tokens : List Token} {xs : List (List Token)} :
    splitOperands tokens = .ok xs ↔
      (operands tokens).complete = xs ∧ (operands tokens).cutShort = none := by
  simp only [splitOperands]
  cases (operands tokens).cutShort <;> simp

theorem flatten_of_splitOperands {tokens : List Token} {xs : List (List Token)}
    (h : splitOperands tokens = .ok xs) : xs.flatten = tokens := by
  obtain ⟨rfl, hn⟩ := splitOperands_eq_ok_iff.mp h
  obtain ⟨unread, he, hu⟩ := (covers_operandsFrom_formFrom tokens).1 0
  rw [hu hn, List.append_nil] at he
  exact he

theorem enclosed?_eq_some_iff {form inner : List Token} :
    enclosed? form = some inner ↔
      ∃ first last, form = first :: (inner ++ [last]) ∧ first.isOpen ∧ last.isClose := by
  constructor
  · intro h
    match form with
    | [] => simp [enclosed?] at h
    | first :: ts =>
      cases hl : ts.getLast? with
      | none => simp [enclosed?, hl] at h
      | some last =>
        simp only [enclosed?, hl, Option.ite_none_right_eq_some, Option.some.injEq] at h
        obtain ⟨hparens, rfl⟩ := h
        simp only [Bool.and_eq_true] at hparens
        refine ⟨first, last, ?_, hparens⟩
        obtain ⟨ys, rfl⟩ := List.getLast?_eq_some_iff.mp hl
        simp
  · intro h
    obtain ⟨first, last, rfl, ho, hc⟩ := h
    simp [enclosed?, ho, hc]

/-- The runs of operands in a form: those behind its head, or all that is in it if the form is a
block. -/
def RunOf (form : List Token) (xs : List (List Token)) : Prop :=
  ∃ inner, enclosed? form = some inner ∧
    (splitOperands inner = .ok xs ∨ splitOperands inner.tail = .ok xs)

/-- The operands of a run stand in the form as they are, between its two parens. -/
theorem RunOf.isInfix_flatten {form : List Token} {xs : List (List Token)} (h : RunOf form xs) :
    xs.flatten <:+: form := by
  obtain ⟨inner, he, hs⟩ := h
  obtain ⟨first, last, rfl, -, -⟩ := enclosed?_eq_some_iff.mp he
  have hinner : inner <:+: first :: (inner ++ [last]) := ⟨[first], [last], by simp⟩
  rcases hs with hs | hs
  · exact flatten_of_splitOperands hs ▸ hinner
  · exact flatten_of_splitOperands hs ▸ (List.tail_suffix inner).isInfix.trans hinner

theorem RunOf.length_flatten {form : List Token} {xs : List (List Token)} (h : RunOf form xs) :
    xs.flatten.length + 2 ≤ form.length := by
  obtain ⟨inner, he, hs⟩ := h
  obtain ⟨first, last, rfl, -, -⟩ := enclosed?_eq_some_iff.mp he
  rcases hs with hs | hs <;> simp [flatten_of_splitOperands hs]

theorem isInfix_flatten_of_mem {x : List Token} {xs : List (List Token)} (h : x ∈ xs) :
    x <:+: xs.flatten := by
  obtain ⟨before, after, rfl⟩ := List.append_of_mem h
  exact ⟨before.flatten, after.flatten, by simp⟩

theorem RunOf.isInfix_of_mem {form x : List Token} {xs : List (List Token)} (h : RunOf form xs)
    (hx : x ∈ xs) : x <:+: form := (isInfix_flatten_of_mem hx).trans h.isInfix_flatten

theorem RunOf.length_lt_of_mem {form x : List Token} {xs : List (List Token)}
    (h : RunOf form xs) (hx : x ∈ xs) : x.length < form.length := by
  have hle := (isInfix_flatten_of_mem hx).length_le
  have := h.length_flatten
  omega

end FlatLisp.Nesting
