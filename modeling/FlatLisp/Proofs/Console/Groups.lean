import FlatLisp.Proofs.Console.Dialogue

/-! How the lines make up sources. The lines that go into programs form groups, one for each source
that is executed, and the last ones may be left pending. -/
namespace FlatLisp
open Lexer

namespace Console

variable {c d : Console} {r : Response} {line : List Char} {kept left lines : List (List Char)}
  {groups : List (List (List Char))} {steps : Nat} {xs : List (Console × List Char)}

/-- The lines that go into programs, trimmed. -/
def taken (exchanges : List (Console × List Char)) : List (List Char) :=
  (exchanges.filter fun (c, line) => c.TakesUp line).map fun (_, line) => trimBlanks line

/-- The sources that are executed. -/
def sources (exchanges : List (Console × List Char)) : List String :=
  exchanges.filterMap fun (c, line) => c.source? line

/-- Lines as one text, each with a line break. -/
def joined (lines : List (List Char)) : List Char := lines.flatMap (· ++ ['\n'])

theorem taken_cons (ht : c.TakesUp line) :
    taken ((c, line) :: xs) = trimBlanks line :: taken xs := by
  simp [taken, ht]

theorem taken_cons_of_not_takesUp (ht : ¬ c.TakesUp line) :
    taken ((c, line) :: xs) = taken xs := by
  simp [taken, ht]

theorem sources_cons (c : Console) (line : List Char) (xs : List (Console × List Char)) :
    sources ((c, line) :: xs) = (c.source? line).toList ++ sources xs := by
  simp only [sources, List.filterMap_cons]
  cases c.source? line <;> rfl

theorem joined_concat (kept : List (List Char)) (line : List Char) :
    joined (kept ++ [line]) = joined kept ++ line ++ ['\n'] := by
  simp [joined]

/-- The input that is pending when the conversation ends. Without an end there is none. -/
def leftover (steps : Nat) (c : Console) (lines : List (List Char)) : List Char :=
  ((c.converse steps lines).map fun (_, d) => d.pending).getD []

theorem leftover_cons (h : c.feed steps line = some (r, d)) (hr : r ≠ .goodbye) :
    c.leftover steps (line :: lines) = d.leftover steps lines := by
  rw [leftover, converse_cons hr h, Option.map_map]
  rfl

/-- With the lines in `kept` taken up already, those to come complete one group after another, and a
source is executed for each. Behind the last group, lines may be left that complete no source. -/
structure Divides (steps : Nat) (c : Console) (lines kept : List (List Char))
    (groups : List (List (List Char))) (left : List (List Char)) : Prop where
  taken : kept ++ taken (c.dialogue steps lines) = groups.flatten ++ left
  sources : sources (c.dialogue steps lines) = groups.map fun group => String.ofList (joined group)
  leftover : c.leftover steps lines = joined left

namespace Divides

/-- A line that is passed over leaves the groups as they are. -/
theorem passed (hfeed : c.feed steps line = some (r, d)) (hr : r ≠ .goodbye)
    (ht : ¬ c.TakesUp line) (h : Divides steps d lines kept groups left) :
    Divides steps c (line :: lines) kept groups left where
  taken := by rw [dialogue_cons hfeed hr, taken_cons_of_not_takesUp ht, h.taken]
  sources := by
    rw [dialogue_cons hfeed hr, sources_cons, source?_of_not_takesUp ht]
    exact h.sources
  leftover := by rw [leftover_cons hfeed hr, h.leftover]

/-- Nothing is pending where a command ends the conversation. -/
theorem ended (hfeed : c.feed steps line = some (.goodbye, d)) (ht : ¬ c.TakesUp line)
    (hd : d.pending = joined kept) : Divides steps c (line :: lines) kept [] kept where
  taken := by
    rw [dialogue_goodbye hfeed, taken_cons_of_not_takesUp ht]
    exact List.append_nil kept
  sources := by
    rw [dialogue_goodbye hfeed, sources_cons, source?_of_not_takesUp ht]
    rfl
  leftover := by
    simp only [Console.leftover, converse, hfeed]
    exact hd

theorem collected (hfeed : c.feed steps line = some (.collecting, d)) (ht : c.TakesUp line)
    (ho : 0 < openBalance (c.extended line))
    (h : Divides steps d lines (kept ++ [trimBlanks line]) groups left) :
    Divides steps c (line :: lines) kept groups left where
  taken := by
    rw [dialogue_cons hfeed nofun, taken_cons ht, ← h.taken, List.append_assoc,
      List.singleton_append]
  sources := by
    rw [dialogue_cons hfeed nofun, sources_cons, source?_of_open ho]
    exact h.sources
  leftover := by rw [leftover_cons hfeed nofun, h.leftover]

variable {source : String} (hs : c.source? line = some source)
  (hj : source = String.ofList (joined (kept ++ [trimBlanks line])))
include hs hj

/-- The line that completes a source is the last one of its group. -/
theorem executed {x : Execution} (hfeed : c.feed steps line = some (.executed source x, d))
    (ht : c.TakesUp line) (h : Divides steps d lines [] groups left) :
    Divides steps c (line :: lines) kept ((kept ++ [trimBlanks line]) :: groups) left where
  taken := by
    rw [dialogue_cons hfeed nofun, taken_cons ht, List.flatten_cons, List.append_assoc, ← h.taken]
    simp
  sources := by
    rw [dialogue_cons hfeed nofun, sources_cons, hs, h.sources, hj]
    rfl
  leftover := by rw [leftover_cons hfeed nofun, h.leftover]

theorem running (hfeed : c.feed steps line = none) (ht : c.TakesUp line) :
    Divides steps c (line :: lines) kept [kept ++ [trimBlanks line]] [] where
  taken := by
    rw [dialogue_unanswered hfeed, taken_cons ht, List.flatten_singleton, List.append_nil]
    rfl
  sources := by
    rw [dialogue_unanswered hfeed, sources_cons, hs, hj]
    rfl
  leftover := by
    simp only [Console.leftover, converse, hfeed]
    rfl

end Divides

/-- By induction on the lines. What is pending is the lines that are kept. -/
theorem exists_divides (steps : Nat) (lines : List (List Char)) (h : c.pending = joined kept) :
    ∃ groups left, Divides steps c lines kept groups left := by
  induction lines generalizing c kept with
  | nil =>
    refine ⟨[], kept, ?_, rfl, h⟩
    rw [dialogue, List.flatten_nil, List.nil_append]
    exact List.append_nil kept
  | cons line lines ih =>
    have hextended : c.extended line = joined (kept ++ [trimBlanks line]) := by
      rw [joined_concat, extended, h]
    have hline := handles_feed steps c line
    generalize hfeed : c.feed steps line = answer at hline
    cases hline with
    | @passed r d ht hr hp hs hquit =>
      have hd : d.pending = joined kept := by rw [hp, ← h, pending_of_not_takesUp ht]
      by_cases hbye : r = .goodbye
      · subst r
        exact ⟨[], kept, .ended hfeed ht hd⟩
      · obtain ⟨groups, left, hrest⟩ := ih hd
        exact ⟨groups, left, .passed hfeed hbye ht hrest⟩
    | collected ht ho =>
      obtain ⟨groups, left, hrest⟩ := @ih { c with pending := c.extended line } _ hextended
      exact ⟨groups, left, .collected hfeed ht ho hrest⟩
    | @executed x s ht hc hx =>
      obtain ⟨groups, left, hrest⟩ := @ih ⟨s, []⟩ [] rfl
      have hsource := source?_of_closed ht hc
      exact ⟨_, left, .executed hsource (congrArg String.ofList hextended) hfeed ht hrest⟩
    | running ht hc hx =>
      have hsource := source?_of_closed ht hc
      exact ⟨_, [], .running hsource (congrArg String.ofList hextended) hfeed ht⟩

/-- The sources in the answers of a conversation that ends. -/
theorem sources_of_converse {responses : List Response}
    (h : c.converse steps lines = some (responses, d)) :
    responses.filterMap Response.source? = sources (c.dialogue steps lines) := by
  induction lines generalizing c responses with
  | nil =>
    obtain ⟨rfl, -⟩ := Prod.mk.inj (Option.some.inj h)
    rfl
  | cons line lines ih =>
    cases hfeed : c.feed steps line with
    | none => simp [converse, hfeed] at h
    | some answer =>
      obtain ⟨r, e⟩ := answer
      have hsource := source?_of_feed hfeed
      by_cases hr : r = .goodbye
      · subst r
        obtain ⟨rfl, -⟩ : _ = responses ∧ e = d := by simpa [converse, hfeed] using h
        rw [dialogue_goodbye hfeed, sources_cons, ← hsource]
        rfl
      · rw [converse_cons hr hfeed] at h
        obtain ⟨⟨rest, e⟩, hrest, heq⟩ := Option.map_eq_some_iff.mp h
        obtain ⟨rfl, rfl⟩ := Prod.mk.inj heq
        rw [dialogue_cons hfeed hr, sources_cons, ← ih hrest, ← hsource, List.filterMap_cons]
        cases r.source? <;> rfl

/-- A source that is executed has no parens left open, and the lexer counts them alike. -/
theorem Regular.ne_unclosed (hc : c.Regular) {source : String} (h : c.source? line = some source)
    {n : Nat} {x : Execution} {s : Session} (hx : c.session.execute n source = some (x, s))
    {e : Error} (he : x.outcome = .error e) (count : Nat) :
    e.fault ≠ .unbalanced (.unclosed count) := by
  obtain ⟨⟨-, hclosed⟩, rfl⟩ : (c.TakesUp line ∧ openBalance (c.extended line) ≤ 0) ∧
      String.ofList (c.extended line) = source := by
    simpa [source?] using h
  refine Session.ne_unclosed_of_execute hc.reachable ?_ hx he count
  rw [Session.text_of_comments hc.comments, String.toList_ofList]
  rw [openBalance_eq, excess] at hclosed
  omega

/-- The console counts the parens of every text as the lexer does. It reads all lines up to one that
nothing is read behind. Those that go into programs are, trimmed and in order, the lines of the
sources that are executed and then those that are left pending, and no execution of such a source
fails with an unclosed paren. -/
theorem lines_reach_sources :
    (∀ text, openBalance text =
      ((stripComments text).count '(' : Int) - (stripComments text).count ')') ∧
    ∀ steps lines,
      (∃ unread, lines = (start.dialogue steps lines).map Prod.snd ++ unread ∧
        (unread = [] ∨ ∃ c line, (c, line) ∈ (start.dialogue steps lines).getLast? ∧
          c.Stops steps line)) ∧
      (∃ (groups : List (List (List Char))) (left : List (List Char)),
        taken (start.dialogue steps lines) = groups.flatten ++ left ∧
        sources (start.dialogue steps lines) =
          groups.map (fun group => String.ofList (joined group)) ∧
        start.leftover steps lines = joined left) ∧
      (∀ responses d, start.converse steps lines = some (responses, d) →
        responses.filterMap Response.source? = sources (start.dialogue steps lines)) ∧
      ∀ c line, (c, line) ∈ start.dialogue steps lines →
        (∀ r d, c.feed steps line = some (r, d) → r.source? = c.source? line) ∧
        ∀ source, c.source? line = some source →
          ∀ n x s, c.session.execute n source = some (x, s) → ∀ e, x.outcome = .error e →
            ∀ count, e.fault ≠ .unbalanced (.unclosed count) := by
  refine ⟨openBalance_eq, fun steps lines => ⟨lines_of_dialogue steps start lines, ?_, ?_, ?_⟩⟩
  · obtain ⟨groups, left, htaken, hsources, hleft⟩ := @exists_divides start [] steps lines rfl
    exact ⟨groups, left, htaken, hsources, hleft⟩
  · intro responses d h
    exact sources_of_converse h
  · intro c line hmem
    have hc := regular_start.of_mem_dialogue hmem
    refine ⟨fun r d h => source?_of_feed h, ?_⟩
    intro source hsource n x s hx e he count
    exact hc.ne_unclosed hsource hx he count

/-- Lines of two programs, the first of which closes too much, and of a third one that is not
complete. Between them a line is blank and another is a command. -/
def unfinished : List (List Char) :=
  ["(print 1)) ; (((", "", ":reset\r", "  (print (+ 1 ; ((", ":help", "", "2))", "(print",
    " :quit "].map String.toList

theorem lines_reach_sources_unfinished :
    (∃ (groups : List (List (List Char))) (left : List (List Char)),
      groups.flatten ++ left = ["(print 1)) ; (((", "(print (+ 1 ; ((", ":help", "", "2))",
        "(print", ":quit"].map String.toList ∧
      groups.map (fun group => String.ofList (joined group)) =
        ["(print 1)) ; (((\n", "(print (+ 1 ; ((\n:help\n\n2))\n"] ∧
      joined left = "(print\n:quit\n".toList) ∧
    ∃ x s e, start.session.execute 20 "(print 1)) ; (((\n" = some (x, s) ∧ x.outcome = .error e ∧
      ∀ count, e.fault ≠ .unbalanced (.unclosed count) := by
  obtain ⟨-, hread⟩ := lines_reach_sources
  obtain ⟨-, ⟨groups, left, htaken, hsources, hleft⟩, -, hsound⟩ := hread 20 unfinished
  refine ⟨⟨groups, left, ?_, ?_, ?_⟩, ?_⟩
  · rw [← htaken]
    decide +kernel
  · rw [← hsources]
    decide +kernel
  · rw [← hleft]
    decide +kernel
  · have hstray : start.session.execute 20 "(print 1)) ; (((\n" =
        some (⟨#[], .error (.bare (.unbalanced (.strayClose 9)))⟩, start.session) := by
      refine Session.execute_of_imbalance? ?_ 20
      decide +kernel
    refine ⟨_, _, _, hstray, rfl, ?_⟩
    have hmem : (start, "(print 1)) ; (((".toList) ∈ start.dialogue 20 unfinished :=
      List.mem_cons_self
    have hfirst : start.source? "(print 1)) ; (((".toList = some "(print 1)) ; (((\n" := by
      decide +kernel
    exact (hsound _ _ hmem).2 _ hfirst 20 _ _ hstray _ rfl

end Console
end FlatLisp
