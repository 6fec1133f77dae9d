import FlatLisp.Proofs.Comments
import FlatLisp.Proofs.Console.Dialogue

/-! What may become of pending input. The console goes by how many parens are open on the whole, and
so it also keeps input that no further lines complete. -/
namespace FlatLisp
namespace Lexer
open Nesting

variable {depth opened : Nat} {text before rest : List Char}

theorem NeverBelow.of_isPrefix (h : NeverBelow depth text) (hb : before <+: text) :
    NeverBelow depth before :=
  fun _ hp => h _ (hp.trans hb)

theorem balancedFrom_replicate (opened : Nat) :
    BalancedFrom opened (List.replicate opened ')') := by
  induction opened with
  | zero => exact balancedFrom_nil_iff.mpr rfl
  | succ opened ih => exact balancedFrom_closing_iff.mpr ih

/-- A text that closes too much has the same first stray paren whatever comes behind it. -/
theorem exists_strayClose_append (h : ¬ NeverBelow 0 text) :
    ∃ place, ∀ rest, imbalance? (text ++ rest) = some (.strayClose place) := by
  cases hc : imbalance? text with
  | none => exact absurd (imbalanceFrom_eq_none_iff.mp hc).1 h
  | some cause =>
    obtain ⟨place, rfl⟩ | ⟨count, rfl⟩ := cause_of_imbalanceFrom hc
    · obtain ⟨before, after, rfl, hb, rfl⟩ := strayAt_of_imbalanceFrom hc
      refine ⟨0 + (String.ofList before).utf8ByteSize, fun rest => ?_⟩
      rw [List.append_assoc]
      exact imbalanceFrom_of_balancedFrom hb (after ++ rest)
    · exact absurd (imbalanceFrom_eq_unclosed_iff.mp hc).1 h

theorem stripFrom_isPrefix (inside : Bool) (text rest : List Char) :
    stripFrom inside text <+: stripFrom inside (text ++ rest) := by
  induction text generalizing inside with
  | nil => exact List.nil_prefix
  | cons c text ih =>
    by_cases hc : c = '\n'
    · subst c
      exact (List.prefix_cons_inj _).mpr (ih false)
    · simp only [List.cons_append, stripFrom]
      split
      · exact ih true
      · exact (List.prefix_cons_inj _).mpr (ih false)

/-- What is kept of a text stays, whatever comes behind it. -/
theorem stripComments_isPrefix (text rest : List Char) :
    stripComments text <+: stripComments (text ++ rest) := stripFrom_isPrefix false text rest

theorem exists_tokenize_iff :
    (∃ tokens, tokenize true (String.ofList text) = .ok tokens) ↔
      BalancedFrom 0 (stripComments text) := by
  rw [tokenize_true_eq, String.toList_ofList]
  constructor
  · rintro ⟨tokens, ht⟩
    simpa using (tokenize_eq_ok_iff.mp ht).1
  · intro hb
    refine ⟨cut (stripComments text), tokenize_eq_ok_iff.mpr ⟨?_, ?_⟩⟩
    · rwa [String.toList_ofList]
    · rw [String.toList_ofList, splits_iff]

theorem tokenize_of_imbalance? {cause : Imbalance}
    (h : imbalance? (stripComments text) = some cause) :
    tokenize true (String.ofList text) = .error (.unbalanced cause) := by
  rw [tokenize_true_eq, String.toList_ofList, tokenize_eq_error_iff]
  exact ⟨cause, by rwa [String.toList_ofList], rfl⟩

/-- With something behind it, the text is cut into tokens. -/
def Completable (text : List Char) : Prop :=
  ∃ rest tokens, tokenize true (String.ofList (text ++ rest)) = .ok tokens

/-- A line break ends a comment, and then the open parens are closed. -/
theorem completable_of_neverBelow (h : NeverBelow 0 (stripComments text)) : Completable text := by
  obtain ⟨opened, ho⟩ : ∃ opened,
      (stripComments text).count '(' = (stripComments text).count ')' + opened :=
    Nat.exists_eq_add_of_le (by simpa using h _ (List.prefix_refl _))
  refine ⟨'\n' :: List.replicate opened ')', exists_tokenize_iff.mpr ?_⟩
  have hclosing : stripComments (List.replicate opened ')') = List.replicate opened ')' :=
    stripFrom_of_not_mem (by simp [List.mem_replicate])
  have hsplit : stripComments (text ++ '\n' :: List.replicate opened ')') =
      stripComments text ++ '\n' :: stripComments (List.replicate opened ')') :=
    stripFrom_append_break false text _
  rw [hsplit, hclosing]
  have hleaves : Leaves (· == '(') (· == ')') 0 opened (stripComments text) :=
    ⟨neverBelow_iff.mp h, by rwa [Nat.zero_add]⟩
  refine balancedFrom_iff.mpr (hleaves.append (balancedFrom_iff.mp ?_))
  exact (balancedFrom_other_iff (by decide) (by decide)).mpr (balancedFrom_replicate opened)

theorem completable_iff : Completable text ↔ NeverBelow 0 (stripComments text) := by
  refine ⟨?_, completable_of_neverBelow⟩
  rintro ⟨rest, htokens⟩
  have hb := exists_tokenize_iff.mp htokens
  exact NeverBelow.of_isPrefix hb.1 (stripComments_isPrefix text rest)

theorem exists_tokenize_of_not_completable (h : ¬ Completable text) :
    ∃ place, ∀ rest,
      tokenize true (String.ofList (text ++ rest)) = .error (.unbalanced (.strayClose place)) := by
  obtain ⟨place, hstray⟩ := exists_strayClose_append (mt completable_iff.mpr h)
  refine ⟨place, fun rest => tokenize_of_imbalance? ?_⟩
  obtain ⟨more, hmore⟩ := stripComments_isPrefix text rest
  rw [← hmore]
  exact hstray more

end Lexer

namespace Console
open Lexer

variable {c d : Console} {r : Response} {line : List Char} {lines : List (List Char)} {steps : Nat}

/-- Where the console goes on reading with input that is pending, that input opens more parens than
it closes. But no lines complete it if one of its prefixes, comments aside, closes more than it
opens: whatever comes behind it, it fails with the stray paren that it has already. -/
theorem pending_completable_iff (hline : (c, line) ∈ start.dialogue steps lines)
    (hfeed : c.feed steps line = some (r, d)) (hpending : d.pending ≠ []) :
    (stripComments d.pending).count ')' < (stripComments d.pending).count '(' ∧
    (Completable d.pending ↔
      ∀ before, before <+: stripComments d.pending → before.count ')' ≤ before.count '(') ∧
    (¬ Completable d.pending → ∃ place, ∀ rest, tokenize true (String.ofList (d.pending ++ rest)) =
      .error (.unbalanced (.strayClose place))) := by
  have hd := (regular_start.of_mem_dialogue hline).feed hfeed
  refine ⟨?_, ?_, exists_tokenize_of_not_completable⟩
  · have hopen := hd.pending.resolve_left hpending
    rw [openBalance_eq, excess] at hopen
    omega
  · rw [completable_iff]
    simp only [NeverBelow, Nat.zero_add]

/-- Only the comment closes more than is open. -/
theorem pending_completable_commented :
    ∃ d, start.feed 20 "(print (+ 1 ; )))".toList = some (.collecting, d) ∧
      d.pending = "(print (+ 1 ; )))\n".toList ∧ Completable d.pending := by
  have hfeed : start.feed 20 "(print (+ 1 ; )))".toList =
      some (.collecting, ⟨start.session, "(print (+ 1 ; )))\n".toList⟩) := rfl
  have hline : (start, "(print (+ 1 ; )))".toList) ∈
      start.dialogue 20 ["(print (+ 1 ; )))".toList] := List.mem_cons_self
  obtain ⟨-, hiff, -⟩ := pending_completable_iff hline hfeed (by decide)
  refine ⟨_, hfeed, rfl, hiff.mpr fun before hb => ?_⟩
  have hnone : (stripComments "(print (+ 1 ; )))\n".toList).count ')' = 0 := by decide +kernel
  have hle := hb.sublist.count_le ')'
  rw [hnone] at hle
  omega

/-- The first paren closes nothing, and still the next line is taken for a part of the same
program. -/
theorem stray_pending_not_completable :
    ∃ d, start.feed 20 ")((".toList = some (.collecting, d) ∧ d.pending = ")((\n".toList ∧
      (d, "(print 1)".toList) ∈ start.dialogue 20 [")((".toList, "(print 1)".toList] ∧
      [')'] <+: stripComments d.pending ∧ ¬ Completable d.pending := by
  have hfirst : [')'] <+: stripComments ")((\n".toList := by decide +kernel
  refine ⟨⟨start.session, ")((\n".toList⟩, rfl, rfl, ?_, hfirst, ?_⟩
  · exact List.mem_cons_of_mem _ List.mem_cons_self
  · intro h
    have hnever := completable_iff.mp h _ hfirst
    exact absurd hnever (by decide)

end Console
end FlatLisp
