import FlatLisp.Proofs.Console.Balance
import FlatLisp.Proofs.Session.Joining

/-! The console on a program that goes through as a whole. Fed line by line, it executes the program
piece by piece, where each piece ends as soon as no paren is open, and comes to the same. -/
namespace FlatLisp
open Nesting Evaluation Lexer

namespace Response

/-- The lines that were printed. -/
def printed : Response → List String
  | executed _ x => x.output.toList
  | _ => []

/-- The line was blank or part of a program, and if it has led to an execution, that one has
succeeded. -/
inductive Smooth : Response → Prop
  | ignored : Smooth ignored
  | collecting : Smooth collecting
  | executed {source : String} {x : Execution} {v : Value} :
      x.outcome = .ok v → Smooth (executed source x)

theorem Smooth.ne_goodbye {r : Response} (h : r.Smooth) : r ≠ .goodbye := by
  cases h <;> exact nofun

end Response

namespace Console

variable {c d : Console} {r : Response} {line : List Char} {lines : List (List Char)} {steps : Nat}
  {s t : State (List Token)}

/-- The words that the console takes as commands. -/
def commands : List String := [":help", ":env", ":reset", ":quit", ":exit"]

theorem command?_eq_some {word : String} (h : c.command? word = some (r, d)) :
    word = "" ∧ r = .ignored ∧ d = c ∨ word ∈ commands := by
  simp only [command?] at h
  split at h
  · obtain ⟨rfl, rfl⟩ : _ = r ∧ c = d := by simpa using h
    exact .inl ⟨rfl, rfl, rfl⟩
  · exact .inr (by decide)
  · exact .inr (by decide)
  · exact .inr (by decide)
  · exact .inr (by decide)
  · exact .inr (by decide)
  · cases h

/-- A command would be a bare symbol in a program. -/
theorem tokensOf_of_mem_commands {word : String} (h : word ∈ commands) :
    ∃ t, tokensOf true word.toList = [t] ∧ t.kind = .symbol := by
  have hall : ∀ word ∈ commands, (tokensOf true word.toList).map Token.kind = [.symbol] := by
    decide +kernel
  obtain ⟨t, ht, hk⟩ := List.map_eq_singleton_iff.mp (hall word h)
  exact ⟨t, ht, hk⟩

/-- The pending input ends with a line break and leaves parens open, if there is any. -/
def Waiting (pending : List Char) : Prop :=
  pending = [] ∨ (∃ text, pending = text ++ ['\n']) ∧
    ∃ opened, openAfter 0 (tokensOf true pending) = some (opened + 1)

/-- The console is in the middle of a program. What is pending and the lines to come are the rest of
it, which goes through and then leaves the state. -/
structure Underway (steps : Nat) (c : Console) (lines : List (List Char))
    (t : State (List Token)) : Prop where
  comments : c.session.config.comments = true
  pending : Waiting c.pending
  balanced : Nesting.Balanced (tokensOf true c.pending ++ lines.flatMap (tokensOf true))
  ends : ∃ v, ofProgram (tokensOf true c.pending ++ lines.flatMap (tokensOf true)) steps
    c.session.config.options { env := c.session.env } = some (.ok v, t)

/-- A line adds its tokens to the pending ones, although it is trimmed. -/
theorem tokensOf_pending (h : Waiting c.pending) (line : List Char) :
    tokensOf true (c.pending ++ trimBlanks line ++ ['\n']) =
      tokensOf true c.pending ++ tokensOf true line := by
  have hline : tokensOf true (trimBlanks line ++ ['\n']) = tokensOf true line := by
    rw [tokensOf_append_blank (by decide), tokensOf_trimBlanks]
  obtain hnil | ⟨⟨text, ht⟩, -⟩ := h
  · rw [hnil]
    exact hline
  · have hpending : tokensOf true (text ++ ['\n']) = tokensOf true text :=
      tokensOf_append_blank (by decide) text
    rw [ht, hpending, ← hline, ← tokensOf_append_break]
    simp

theorem Underway.nil (h : Underway steps c [] t) :
    c.pending = [] ∧ t = { env := c.session.env } := by
  have hpending : c.pending = [] := by
    obtain hnil | ⟨-, opened, ho⟩ := h.pending
    · exact hnil
    · have hb := h.balanced
      simp only [List.flatMap_nil, List.append_nil, Nesting.Balanced] at hb
      rw [ho] at hb
      cases hb
  refine ⟨hpending, ?_⟩
  obtain ⟨v, hv⟩ := h.ends
  rw [hpending] at hv
  exact (congrArg Prod.snd (Option.some.inj hv)).symm

/-- No line is a command where nothing is pending, since the program would begin with a symbol. -/
theorem Underway.not_command (h : Underway steps c (line :: lines) t) (hp : c.pending = []) :
    String.ofList (trimBlanks line) ∉ commands := by
  intro hm
  obtain ⟨u, hu, hk⟩ := tokensOf_of_mem_commands hm
  rw [String.toList_ofList, tokensOf_trimBlanks] at hu
  obtain ⟨v, hv⟩ := h.ends
  rw [hp, List.flatMap_cons, hu] at hv
  obtain ⟨e, he⟩ := ofProgram_of_symbol hk (lines.flatMap (tokensOf true))
  cases hv.symm.trans he

/-- What the console does on a line of a program, and what is left of the program then. -/
def Advances (steps : Nat) (c : Console) (lines : List (List Char)) (t : State (List Token))
    (answer : Option (Response × Console)) : Prop :=
  ∃ r d u, answer = some (r, d) ∧ r.Smooth ∧ Underway steps d lines u ∧
    d.session.config = c.session.config ∧ t.env = u.env ∧
    t.output.toList = r.printed ++ u.output.toList

theorem Underway.skip (h : Underway steps c (line :: lines) t) (hl : trimBlanks line = []) :
    Underway steps c lines t := by
  have hnone : tokensOf true line = [] := by
    rw [← tokensOf_trimBlanks, hl]
    rfl
  obtain ⟨hcomments, hpending, hbalanced, hends⟩ := h
  rw [List.flatMap_cons, hnone, List.nil_append] at hbalanced hends
  exact ⟨hcomments, hpending, hbalanced, hends⟩

/-- As long as a paren is open, the line is kept. When none is, a piece of the program is complete,
and what is left of it runs from where that piece ends. -/
theorem Underway.collect (h : Underway steps c (line :: lines) t) :
    Advances steps c lines t (c.collect steps (trimBlanks line)) := by
  have htokens := tokensOf_pending h.pending line
  have hbalanced := h.balanced
  obtain ⟨v, hv⟩ := h.ends
  rw [List.flatMap_cons, ← List.append_assoc, ← htokens] at hbalanced hv
  simp only [Console.collect]
  generalize hp : c.pending ++ trimBlanks line ++ ['\n'] = pending at hbalanced hv
  have hopen := hbalanced
  rw [Nesting.Balanced, openAfter_append] at hopen
  obtain ⟨opened, ho, hrest⟩ := Option.bind_eq_some_iff.mp hopen
  have hcount := openBalance_of_openAfter ho
  cases opened with
  | succ opened =>
    rw [if_pos (by omega)]
    refine ⟨.collecting, _, t, rfl, .collecting, ?_, rfl, rfl, rfl⟩
    exact {
      comments := h.comments
      pending := .inr ⟨⟨_, hp.symm⟩, opened, ho⟩
      balanced := hbalanced
      ends := ⟨v, hv⟩ }
  | zero =>
    obtain ⟨w, u, v', u', hpiece, hlater, rfl⟩ := ofProgram_append_ok ho hrest hv
    have htokenize : tokenize c.session.config.comments (String.ofList pending) =
        .ok (tokensOf true pending) := by
      rw [h.comments]
      exact tokenize_eq_ok_iff_balanced.mpr ⟨by rw [String.toList_ofList], ho⟩
    have hexecute := Session.execute_of_tokenize htokenize steps
    rw [hpiece, Option.map_some] at hexecute
    rw [if_neg (by omega), hexecute, Option.map_some]
    refine ⟨_, _, u', rfl, .executed rfl, ?_, rfl, rfl, ?_⟩
    · exact {
        comments := h.comments
        pending := .inl rfl
        balanced := hrest
        ends := ⟨v', hlater⟩ }
    · simp [State.behind, Response.printed]

theorem Underway.feed (h : Underway steps c (line :: lines) t) :
    Advances steps c lines t (c.feed steps line) := by
  simp only [Console.feed]
  cases hp : c.pending.isEmpty with
  | false =>
    exact h.collect
  | true =>
    have hnil : c.pending = [] := by simpa using hp
    simp only [if_true]
    cases hcommand : c.command? (String.ofList (trimBlanks line)) with
    | none => exact h.collect
    | some answer =>
      obtain ⟨r, d⟩ := answer
      obtain ⟨hblank, rfl, rfl⟩ | hm := command?_eq_some hcommand
      · have hl : trimBlanks line = [] := by simpa using congrArg String.toList hblank
        exact ⟨.ignored, d, t, rfl, .ignored, h.skip hl, rfl, rfl, rfl⟩
      · exact absurd hm (h.not_command hnil)

/-- A response that does not end the conversation is followed by those to the other lines. -/
theorem converse_cons (hr : r ≠ .goodbye) (h : c.feed steps line = some (r, d)) :
    c.converse steps (line :: lines) =
      (d.converse steps lines).map fun (rs, e) => (r :: rs, e) := by
  simp only [converse, h]

/-- By induction on the lines: each of them has a response, and the program is underway until they
are over. -/
theorem Underway.converse (h : Underway steps c lines t) :
    ∃ rs, c.converse steps lines = some (rs ++ [.goodbye], ⟨{ c.session with env := t.env }, []⟩) ∧
      rs.length = lines.length ∧ (∀ r ∈ rs, r.Smooth) ∧
      rs.flatMap Response.printed = t.output.toList := by
  induction lines generalizing c t with
  | nil =>
    obtain ⟨hp, rfl⟩ := h.nil
    refine ⟨[], ?_, rfl, by simp, rfl⟩
    obtain ⟨session, pending⟩ := c
    obtain rfl : pending = [] := hp
    rfl
  | cons line lines ih =>
    obtain ⟨r, d, u, hfeed, hr, hd, hconfig, henv, hout⟩ := h.feed
    obtain ⟨rs, hrs, hlength, hsmooth, hprinted⟩ := ih hd
    refine ⟨r :: rs, ?_, by simp [hlength], List.forall_mem_cons.mpr ⟨hr, hsmooth⟩, ?_⟩
    · rw [converse_cons hr.ne_goodbye hfeed, hrs, Option.map_some, henv]
      simp only [hconfig, List.cons_append]
    · rw [List.flatMap_cons, hprinted, hout]

end Console
end FlatLisp
