import Mathlib.Data.List.Infix
import Mathlib.Logic.Basic

/-! Running counts of what opens and what closes, among characters or among tokens. -/
namespace FlatLisp.Nesting

variable {α : Type} {opens closes : α → Bool} {depth opened left : Nat} {x : α} {xs ys : List α}

/-- With `depth` open before the items, the running count never goes below zero. -/
def NeverNegative (opens closes : α → Bool) (depth : Nat) (xs : List α) : Prop :=
  ∀ before, before <+: xs → before.countP closes ≤ depth + before.countP opens

/-- With `depth` open before the items, the running count never goes below zero and ends at
`opened`. -/
def Leaves (opens closes : α → Bool) (depth opened : Nat) (xs : List α) : Prop :=
  NeverNegative opens closes depth xs ∧
    depth + xs.countP opens = xs.countP closes + opened

theorem neverNegative_nil : NeverNegative opens closes depth [] := by
  intro before h
  simp [List.prefix_nil.mp h]

/-- Besides the empty one, the prefixes of items begin with the first of them. -/
theorem neverNegative_cons_iff : NeverNegative opens closes depth (x :: xs) ↔
    ∀ before, before <+: xs →
      (x :: before).countP closes ≤ depth + (x :: before).countP opens := by
  constructor
  · intro h before hb
    exact h _ (List.prefix_cons_iff.mpr (.inr ⟨before, rfl, hb⟩))
  · intro h before hb
    rcases List.prefix_cons_iff.mp hb with rfl | ⟨rest, rfl, hr⟩
    · simp
    · exact h rest hr

theorem neverNegative_opening_iff (ho : opens x) (hc : ¬ closes x) :
    NeverNegative opens closes depth (x :: xs) ↔ NeverNegative opens closes (depth + 1) xs := by
  rw [neverNegative_cons_iff]
  refine forall₂_congr fun before _ => ?_
  rw [List.countP_cons_of_pos ho, List.countP_cons_of_neg hc]
  omega

theorem neverNegative_closing_iff (ho : ¬ opens x) (hc : closes x) :
    NeverNegative opens closes (depth + 1) (x :: xs) ↔ NeverNegative opens closes depth xs := by
  rw [neverNegative_cons_iff]
  refine forall₂_congr fun before _ => ?_
  rw [List.countP_cons_of_neg ho, List.countP_cons_of_pos hc]
  omega

theorem not_neverNegative_closing (ho : ¬ opens x) (hc : closes x) :
    ¬ NeverNegative opens closes 0 (x :: xs) := by
  intro h
  have hfirst := h [x] ⟨xs, rfl⟩
  rw [List.countP_cons_of_neg ho, List.countP_cons_of_pos hc] at hfirst
  simp at hfirst

theorem neverNegative_other_iff (ho : ¬ opens x) (hc : ¬ closes x) :
    NeverNegative opens closes depth (x :: xs) ↔ NeverNegative opens closes depth xs := by
  rw [neverNegative_cons_iff]
  refine forall₂_congr fun before _ => ?_
  rw [List.countP_cons_of_neg ho, List.countP_cons_of_neg hc]

theorem leaves_nil_iff : Leaves opens closes depth opened ([] : List α) ↔ depth = opened := by
  simp [Leaves, neverNegative_nil]

theorem leaves_opening_iff (ho : opens x) (hc : ¬ closes x) :
    Leaves opens closes depth opened (x :: xs) ↔ Leaves opens closes (depth + 1) opened xs := by
  simp only [Leaves, neverNegative_opening_iff ho hc, List.countP_cons_of_pos ho,
    List.countP_cons_of_neg hc]
  refine and_congr_right fun _ => ?_
  omega

theorem leaves_closing_iff (ho : ¬ opens x) (hc : closes x) :
    Leaves opens closes (depth + 1) opened (x :: xs) ↔ Leaves opens closes depth opened xs := by
  simp only [Leaves, neverNegative_closing_iff ho hc, List.countP_cons_of_neg ho,
    List.countP_cons_of_pos hc]
  refine and_congr_right fun _ => ?_
  omega

theorem not_leaves_closing (ho : ¬ opens x) (hc : closes x) :
    ¬ Leaves opens closes 0 opened (x :: xs) :=
  fun h => not_neverNegative_closing ho hc h.1

theorem leaves_other_iff (ho : ¬ opens x) (hc : ¬ closes x) :
    Leaves opens closes depth opened (x :: xs) ↔ Leaves opens closes depth opened xs := by
  simp only [Leaves, neverNegative_other_iff ho hc, List.countP_cons_of_neg ho,
    List.countP_cons_of_neg hc]

theorem Leaves.unique (h : Leaves opens closes depth opened xs)
    (h' : Leaves opens closes depth left xs) : opened = left := by
  have hcount := h.2
  have hcount' := h'.2
  omega

/-- The items behind others begin with as many open as those leave. -/
theorem Leaves.append (h : Leaves opens closes depth opened xs)
    (h' : Leaves opens closes opened left ys) : Leaves opens closes depth left (xs ++ ys) := by
  obtain ⟨hnever, hcount⟩ := h
  obtain ⟨hnever', hcount'⟩ := h'
  refine ⟨fun before hb => ?_, ?_⟩
  · rcases List.prefix_or_prefix_of_prefix hb (List.prefix_append xs ys) with hle | ⟨more, rfl⟩
    · exact hnever before hle
    · have hmore := hnever' more ((List.prefix_append_right_inj xs).mp hb)
      rw [List.countP_append, List.countP_append]
      omega
  · rw [List.countP_append, List.countP_append]
    omega

end FlatLisp.Nesting
