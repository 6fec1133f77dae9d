import FlatLisp.Proofs.Console
import FlatLisp.Proofs.Session.Parens

/-! The lines that the console reads, and what becomes of each of them: it is passed over, or it
goes into a source that is executed once no paren is open. -/
namespace FlatLisp
open Lexer

/-- The source that has been executed, if one has. -/
def Response.source? : Response → Option String
  | executed source _ => some source
  | _ => none

namespace Console

variable {c d : Console} {r : Response} {line : List Char} {lines : List (List Char)} {steps : Nat}

/-- The line goes into a program. Blank lines and commands are told from one only where no input is
pending. -/
def TakesUp (c : Console) (line : List Char) : Prop :=
  c.pending ≠ [] ∨ trimBlanks line ≠ [] ∧ String.ofList (trimBlanks line) ∉ commands

instance : Decidable (c.TakesUp line) := inferInstanceAs (Decidable (_ ∨ _))

/-- The pending input with the line, which is trimmed, behind it. -/
def extended (c : Console) (line : List Char) : List Char := c.pending ++ trimBlanks line ++ ['\n']

/-- The source that the line completes, to be executed next. -/
def source? (c : Console) (line : List Char) : Option String :=
  if c.TakesUp line ∧ openBalance (c.extended line) ≤ 0 then some (String.ofList (c.extended line))
  else none

/-- The console that reads the next line, after this answer. There is no answer where an execution
does not end. -/
def next? : Option (Response × Console) → Option Console
  | some (.goodbye, _) => none
  | some (_, d) => some d
  | none => none

/-- The lines that are read, each with the console that reads it. -/
def dialogue (steps : Nat) (c : Console) : List (List Char) → List (Console × List Char)
  | [] => []
  | line :: lines =>
    (c, line) :: match next? (c.feed steps line) with
      | some d => dialogue steps d lines
      | none => []

/-- No line is read behind this one: it is a command to stop, or its execution does not end. -/
inductive Stops (steps : Nat) (c : Console) (line : List Char) : Prop
  | command : c.pending = [] → String.ofList (trimBlanks line) ∈ [":quit", ":exit"] →
      Stops steps c line
  | running {source : String} : c.source? line = some source →
      c.session.execute steps source = none → Stops steps c line

/-- All that the console may do with a line. -/
inductive Handles (steps : Nat) (c : Console) (line : List Char) :
    Option (Response × Console) → Prop
  | passed {r : Response} {d : Console} : ¬ c.TakesUp line → r.source? = none → d.pending = [] →
      (d.session = c.session ∨ d.session = c.session.reset) →
      (r = .goodbye → String.ofList (trimBlanks line) ∈ [":quit", ":exit"]) →
      Handles steps c line (some (r, d))
  | collected : c.TakesUp line → 0 < openBalance (c.extended line) →
      Handles steps c line (some (.collecting, { c with pending := c.extended line }))
  | executed {x : Execution} {s : Session} : c.TakesUp line →
      openBalance (c.extended line) ≤ 0 →
      c.session.execute steps (String.ofList (c.extended line)) = some (x, s) →
      Handles steps c line (some (.executed (String.ofList (c.extended line)) x, ⟨s, []⟩))
  | running : c.TakesUp line → openBalance (c.extended line) ≤ 0 →
      c.session.execute steps (String.ofList (c.extended line)) = none →
      Handles steps c line none

theorem pending_of_not_takesUp (ht : ¬ c.TakesUp line) : c.pending = [] := by
  by_contra hne
  exact ht (.inl hne)

theorem handles_command? (steps : Nat) (ht : ¬ c.TakesUp line) :
    Handles steps c line (c.command? (String.ofList (trimBlanks line))) := by
  have hpending := pending_of_not_takesUp ht
  have hword : String.ofList (trimBlanks line) = "" ∨
      String.ofList (trimBlanks line) ∈ commands := by
    by_contra hne
    rw [not_or] at hne
    refine ht (.inr ⟨fun hnil => hne.1 ?_, hne.2⟩)
    rw [hnil]
  simp only [commands, List.mem_cons, List.not_mem_nil, or_false] at hword
  rcases hword with h | h | h | h | hquit | hexit
  · rw [h]
    exact .passed ht rfl hpending (.inl rfl) nofun
  · rw [h]
    exact .passed ht rfl hpending (.inl rfl) nofun
  · rw [h]
    exact .passed ht rfl hpending (.inl rfl) nofun
  · rw [h]
    exact .passed ht rfl hpending (.inr rfl) nofun
  · rw [hquit]
    exact .passed ht rfl hpending (.inl rfl) fun _ => by simp [hquit]
  · rw [hexit]
    exact .passed ht rfl hpending (.inl rfl) fun _ => by simp [hexit]

theorem collect_eq (steps : Nat) (c : Console) (line : List Char) :
    c.collect steps (trimBlanks line) =
      if 0 < openBalance (c.extended line) then
        some (.collecting, { c with pending := c.extended line })
      else (c.session.execute steps (String.ofList (c.extended line))).map fun (x, s) =>
        (.executed (String.ofList (c.extended line)) x, ⟨s, []⟩) := rfl

theorem handles_collect (ht : c.TakesUp line) :
    Handles steps c line (c.collect steps (trimBlanks line)) := by
  rw [collect_eq]
  split
  · exact .collected ht ‹_›
  · have hclosed : openBalance (c.extended line) ≤ 0 := Int.not_lt.mp ‹_›
    cases hx : c.session.execute steps (String.ofList (c.extended line)) with
    | none => exact .running ht hclosed hx
    | some p => exact .executed ht hclosed hx

theorem command?_of_takesUp (ht : c.TakesUp line) (hp : c.pending = []) :
    c.command? (String.ofList (trimBlanks line)) = none := by
  obtain ⟨hne, hword⟩ := ht.resolve_left (not_not.mpr hp)
  cases hcommand : c.command? (String.ofList (trimBlanks line)) with
  | none => rfl
  | some answer =>
    rcases command?_eq_some hcommand with ⟨hblank, -, -⟩ | hmem
    · exact absurd (by simpa using congrArg String.toList hblank) hne
    · exact absurd hmem hword

theorem handles_feed (steps : Nat) (c : Console) (line : List Char) :
    Handles steps c line (c.feed steps line) := by
  by_cases ht : c.TakesUp line
  · have hfeed : c.feed steps line = c.collect steps (trimBlanks line) := by
      simp only [feed]
      by_cases hp : c.pending = []
      · simp only [hp, List.isEmpty_nil, if_true, command?_of_takesUp ht hp]
      · simp only [List.isEmpty_iff, hp, if_false]
    rw [hfeed]
    exact handles_collect ht
  · have hpending := pending_of_not_takesUp ht
    have hcommand := handles_command? steps ht
    simp only [feed, hpending, List.isEmpty_nil, if_true]
    cases ha : c.command? (String.ofList (trimBlanks line)) with
    | some answer => rwa [ha] at hcommand
    | none =>
      rw [ha] at hcommand
      cases hcommand
      contradiction

theorem source?_of_not_takesUp (ht : ¬ c.TakesUp line) : c.source? line = none :=
  if_neg fun h => ht h.1

theorem source?_of_open (ho : 0 < openBalance (c.extended line)) : c.source? line = none :=
  if_neg fun h => Int.not_le.mpr ho h.2

theorem source?_of_closed (ht : c.TakesUp line) (hc : openBalance (c.extended line) ≤ 0) :
    c.source? line = some (String.ofList (c.extended line)) := if_pos ⟨ht, hc⟩

theorem source?_of_feed (h : c.feed steps line = some (r, d)) : r.source? = c.source? line := by
  have hline := handles_feed steps c line
  rw [h] at hline
  cases hline with
  | passed ht hr => rw [hr, source?_of_not_takesUp ht]
  | collected ht ho => rw [source?_of_open ho]; rfl
  | executed ht hc => rw [source?_of_closed ht hc]; rfl

theorem next?_of_ne_goodbye (hr : r ≠ .goodbye) : next? (some (r, d)) = some d := by
  cases r with
  | goodbye => exact absurd rfl hr
  | _ => rfl

theorem dialogue_cons (h : c.feed steps line = some (r, d)) (hr : r ≠ .goodbye) :
    c.dialogue steps (line :: lines) = (c, line) :: d.dialogue steps lines := by
  simp only [dialogue, h, next?_of_ne_goodbye hr]

theorem dialogue_goodbye (h : c.feed steps line = some (.goodbye, d)) :
    c.dialogue steps (line :: lines) = [(c, line)] := by
  simp only [dialogue, h, next?]

theorem dialogue_unanswered (h : c.feed steps line = none) :
    c.dialogue steps (line :: lines) = [(c, line)] := by
  simp only [dialogue, h, next?]

theorem stops_of_next?_eq_none (h : next? (c.feed steps line) = none) : c.Stops steps line := by
  have hline := handles_feed steps c line
  generalize c.feed steps line = answer at h hline
  cases hline with
  | @passed r d ht hr hp hs hquit =>
    by_cases hbye : r = .goodbye
    · exact .command (pending_of_not_takesUp ht) (hquit hbye)
    · rw [next?_of_ne_goodbye hbye] at h
      cases h
  | collected ht ho => cases h
  | executed ht hc hx => cases h
  | running ht hc hx => exact .running (source?_of_closed ht hc) hx

/-- All lines are read up to one that nothing is read behind. -/
theorem lines_of_dialogue (steps : Nat) (c : Console) (lines : List (List Char)) :
    ∃ unread, lines = (c.dialogue steps lines).map Prod.snd ++ unread ∧
      (unread = [] ∨ ∃ d line, (d, line) ∈ (c.dialogue steps lines).getLast? ∧
        d.Stops steps line) := by
  induction lines generalizing c with
  | nil => exact ⟨[], rfl, .inl rfl⟩
  | cons line lines ih =>
    simp only [dialogue]
    cases hnext : next? (c.feed steps line) with
    | none => exact ⟨lines, rfl, .inr ⟨c, line, rfl, stops_of_next?_eq_none hnext⟩⟩
    | some d =>
      obtain ⟨unread, hlines, hlast⟩ := ih d
      refine ⟨unread, congrArg (line :: ·) hlines, hlast.imp id ?_⟩
      rintro ⟨e, last, hmem, hstops⟩
      refine ⟨e, last, ?_, hstops⟩
      rw [Option.mem_def] at hmem ⊢
      rw [List.getLast?_cons, hmem]
      rfl

/-- What holds of a console at every line. -/
structure Regular (c : Console) : Prop where
  reachable : c.session.Reachable
  comments : c.session.config.comments = true
  pending : c.pending = [] ∨ 0 < openBalance c.pending

theorem regular_start : start.Regular where
  reachable := .start _
  comments := rfl
  pending := .inl rfl

theorem Regular.feed (hc : c.Regular) (h : c.feed steps line = some (r, d)) : d.Regular := by
  have hline := handles_feed steps c line
  rw [h] at hline
  cases hline with
  | passed ht hr hp hs =>
    rcases hs with hs | hs
    · exact ⟨hs ▸ hc.reachable, hs ▸ hc.comments, .inl hp⟩
    · exact ⟨hs ▸ hc.reachable.reset, hs ▸ hc.comments, .inl hp⟩
  | collected ht ho => exact ⟨hc.reachable, hc.comments, .inr ho⟩
  | executed ht hclosed hx =>
    exact ⟨.execute hc.reachable hx, (Session.config_of_execute hx ▸ hc.comments), .inl rfl⟩

theorem exists_feed_of_next? (h : next? (c.feed steps line) = some d) :
    ∃ r, c.feed steps line = some (r, d) := by
  cases hfeed : c.feed steps line with
  | none =>
    rw [hfeed] at h
    cases h
  | some answer =>
    obtain ⟨r, e⟩ := answer
    rw [hfeed] at h
    cases r with
    | goodbye => cases h
    | _ =>
      obtain rfl := Option.some.inj h
      exact ⟨_, rfl⟩

/-- By induction on the lines, since every answer leaves the console regular. -/
theorem Regular.of_mem_dialogue (hc : c.Regular) (h : (d, line) ∈ c.dialogue steps lines) :
    d.Regular := by
  induction lines generalizing c with
  | nil => cases h
  | cons first lines ih =>
    rw [dialogue] at h
    rcases List.mem_cons.mp h with heq | hrest
    · obtain ⟨rfl, -⟩ := Prod.mk.inj heq
      exact hc
    · split at hrest
      · obtain ⟨r, hfeed⟩ := exists_feed_of_next? ‹_›
        exact ih (hc.feed hfeed) hrest
      · cases hrest

end Console
end FlatLisp
