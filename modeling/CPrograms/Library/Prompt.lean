import CPrograms.Library.Extraction
import CPrograms.Library.Runs

/-!
# Asking until a number is accepted

A loop that reads numbers until one of them is accepted. How a number is read is a
parameter: from a list of entries every read succeeds, from a stream one can fail. What an
accepted number leads to is the answer of the prompt.

On a stream a prompt gets past a word exactly when the word is read to its end as numbers
that are refused. Any other word either answers the prompt, or makes the stream fail, and
then the prompt asks for ever.
-/

namespace CPrograms.Library

universe u v w

/-- A prompt that has refused some numbers and asks for another, or has its answer. -/
inductive Prompt (Input : Type u) (Answer : Type v) where
  | asking (refused : Nat) (input : Input)
  | answered (answer : Answer) (input : Input)

/-- Take the next entry of a list. There is none to wait for behind the last one. -/
def takeEntry : List Int → Option (Int × List Int)
  | [] => none
  | entry :: entries => some (entry, entries)

namespace Prompt

variable {Input : Type u} {Answer : Type v} (read : Input → Option (Int × Input))
  (accepts : Int → Option Answer)

/-- One round of the loop. -/
def step : Prompt Input Answer → Option (Prompt Input Answer)
  | .asking refused input =>
      (read input).map fun (n, input) =>
        match accepts n with
        | some answer => .answered answer input
        | none => .asking (refused + 1) input
  | .answered _ _ => none

variable {read accepts}

/-- A number that is refused is asked for once more. -/
theorem step_refused {input next : Input} {n : Int} (taken : read input = some (n, next))
    (refuses : accepts n = none) (refused : Nat) :
    step read accepts (.asking refused input) = some (.asking (refused + 1) next) := by
  simp only [step, taken, Option.map_some, refuses]

/-- A number that is accepted answers the prompt. -/
theorem step_accepted {input next : Input} {n : Int} {answer : Answer}
    (taken : read input = some (n, next)) (accepted : accepts n = some answer) (refused : Nat) :
    step read accepts (.asking refused input) = some (.answered answer next) := by
  simp only [step, taken, Option.map_some, accepted]

/-- A number that was read is accepted or refused. -/
theorem step_cases {input next : Input} {refused : Nat} {n : Int} {state : Prompt Input Answer}
    (taken : read input = some (n, next))
    (stepped : step read accepts (.asking refused input) = some state) :
    (∃ answer, accepts n = some answer ∧ state = .answered answer next) ∨
      (accepts n = none ∧ state = .asking (refused + 1) next) := by
  cases decided : accepts n with
  | some answer =>
      rw [step_accepted taken decided, Option.some.injEq] at stepped
      exact .inl ⟨answer, rfl, stepped.symm⟩
  | none =>
      rw [step_refused taken decided, Option.some.injEq] at stepped
      exact .inr ⟨rfl, stepped.symm⟩

/-- Entries that are refused are read one after the other. -/
theorem goes_entries {entries : List Int} (refuses : ∀ n ∈ entries, accepts n = none)
    (later : List Int) (refused : Nat) :
    Goes (step takeEntry accepts) (.asking refused (entries ++ later))
      (.asking (refused + entries.length) later) := by
  induction entries generalizing refused with
  | nil => exact .refl
  | cons n entries ih =>
      rw [List.forall_mem_cons] at refuses
      have first : step takeEntry accepts (.asking refused (n :: (entries ++ later))) =
          some (.asking (refused + 1) (entries ++ later)) := step_refused rfl refuses.1 refused
      have rest := ih refuses.2 (refused + 1)
      rw [Nat.add_assoc, Nat.add_comm 1] at rest
      exact .head first rest

/-! ## Prompts on a stream -/

/-- A word that is read to its end as numbers that are refused. -/
def Passes (accepts : Int → Option Answer) (word : List Char) : Prop :=
  ∃ ns, Numbers word ns ∧ ∀ n ∈ ns, accepts n = none

/-- Whatever uninitialised variables hold, the prompt refuses what stands before a word and
takes a right answer from that word. -/
def Reaches (accepts : Int → Option Answer) (text word : List Char) (later : List (List Char))
    (right : Answer → Prop) : Prop :=
  ∀ held, ∃ refused ready answer after,
    Goes (step Cin.read accepts) (.asking 0 (.good text held)) (.asking refused ready) ∧
      words ready.stream.rest = word :: later ∧
      step Cin.read accepts (.asking refused ready) = some (.answered answer after) ∧
      words after.stream.rest = later ∧ right answer

/-- A word that passes is refused, if another word follows. -/
theorem goes_numbers {word : List Char} {ns : List Int} (numbers : Numbers word ns)
    (refuses : ∀ n ∈ ns, accepts n = none) (solid : ∀ c ∈ word, isSpaceChar c = false)
    {text : List Char} {later : List (List Char)} (more : later ≠ [])
    (split : words text = words word ++ later) (refused : Nat) (held : Nat → Int) :
    ∃ refused' text' held', words text' = later ∧
      Goes (step Cin.read accepts) (.asking refused (.good text held))
        (.asking refused' (.good text' held')) := by
  induction numbers generalizing text refused held with
  | nil => exact ⟨refused, text, held, split, .refl⟩
  | @cons word left n ns scanned fits _ ih =>
      rw [List.forall_mem_cons] at refuses
      have nonempty : word ≠ [] := by
        rintro rfl
        cases scanned
      rw [words_of_solid solid, if_neg nonempty] at split
      obtain ⟨rest, eof, remaining, unended, taken⟩ := Cin.read_of_words split scanned fits held
      have good : eof = false := unended (by simp [remaining, more])
      subst good
      have suffix : left <:+ word := by
        have suffix := scanInt_suffix word
        rwa [scanned] at suffix
      obtain ⟨refused', text', held', done, goes⟩ := ih refuses.2
        (fun c member => solid c (suffix.subset member)) remaining (refused + 1) _
      exact ⟨refused', text', held', done, .head (step_refused taken refuses.1 refused) goes⟩

/-- Words that pass are refused, if another word follows. -/
theorem goes_words {front : List (List Char)} (pass : ∀ word ∈ front, Passes accepts word)
    {text : List Char} {later : List (List Char)} (more : later ≠ [])
    (split : words text = front ++ later) (refused : Nat) (held : Nat → Int) :
    ∃ refused' text' held', words text' = later ∧
      Goes (step Cin.read accepts) (.asking refused (.good text held))
        (.asking refused' (.good text' held')) := by
  induction front generalizing text refused held with
  | nil => exact ⟨refused, text, held, split, .refl⟩
  | cons word front ih =>
      rw [List.forall_mem_cons] at pass
      obtain ⟨ns, numbers, refuses⟩ := pass.1
      have member : word ∈ words text := by
        rw [split]
        exact List.mem_cons_self
      have solid := solid_of_mem_words member
      obtain ⟨-, -, -, -, nonempty, -⟩ := exists_of_words split
      have split' : words text = words word ++ (front ++ later) := by
        rw [words_of_solid solid, if_neg nonempty]
        exact split
      obtain ⟨refused₁, text₁, held₁, split₁, first⟩ := goes_numbers numbers refuses solid
        (List.append_ne_nil_of_right_ne_nil _ more) split' refused held
      obtain ⟨refused', text', held', done, rest⟩ := ih pass.2 split₁ refused₁ held₁
      exact ⟨refused', text', held', done, first.trans rest⟩

/-- What holds on a stream with a word that does not pass before the one that should answer:
the prompt is before that word, or on a failed stream, or it is answered. -/
def Astray (accepts : Int → Option Answer) (expected : List (List Char)) :
    Prompt Cin Answer → Prop
  | .asking _ cin =>
      cin.held = (fun _ => 0) ∧ (cin.stream.fail = true ∨
        ∃ text front, cin.stream = ⟨text, false, false⟩ ∧ words text = front ++ expected ∧
          ∃ word ∈ front, ¬ Passes accepts word)
  | .answered _ _ => True

/-- A number that was refused does not make a word pass that would not have passed. -/
theorem not_passes_of_scanned {word left : List Char} {n : Int}
    (scanned : scanInt word = (some n, left)) (fits : FitsInt n) (refuses : accepts n = none)
    (stuck : ¬ Passes accepts word) : ¬ Passes accepts left := by
  rintro ⟨ns, numbers, refused⟩
  exact stuck ⟨n :: ns, .cons scanned fits numbers, List.forall_mem_cons.mpr ⟨refuses, refused⟩⟩

/-- On a failed stream the prompt only sees what uninitialised variables hold. -/
theorem step_fail (zero : accepts 0 = none) {cin : Cin} (held : cin.held = fun _ => 0)
    (failed : cin.stream.fail = true) (refused : Nat) :
    step Cin.read accepts (.asking refused cin) =
      some (.asking (refused + 1) ⟨cin.stream, fun _ => 0⟩) := by
  have taken := Cin.read_fail failed
  rw [held] at taken
  exact step_refused taken zero refused

/-- On a failed stream the prompt asks for ever. -/
theorem asking_of_goes_fail (zero : accepts 0 = none) {refused : Nat} {stream : InputStream Char}
    (failed : stream.fail = true) {state : Prompt Cin Answer}
    (goes : Goes (step Cin.read accepts) (.asking refused ⟨stream, fun _ => 0⟩) state) :
    ∃ refused', state = .asking refused' ⟨stream, fun _ => 0⟩ := by
  have keeps : ∀ before after : Prompt Cin Answer,
      (∃ refused', before = .asking refused' ⟨stream, fun _ => 0⟩) →
      step Cin.read accepts before = some after →
      ∃ refused', after = .asking refused' ⟨stream, fun _ => 0⟩ := by
    rintro _ after ⟨refused', rfl⟩ stepped
    rw [step_fail zero rfl failed, Option.some.injEq] at stepped
    exact ⟨refused' + 1, stepped.symm⟩
  exact goes.invariant keeps ⟨refused, rfl⟩

/-- Where no number starts the first word, the prompt asks for ever. -/
theorem asking_of_goes_malformed (zero : accepts 0 = none) {text word : List Char}
    {later : List (List Char)} (split : words text = word :: later)
    (malformed : (scanInt word).1 = none) {refused : Nat} {state : Prompt Cin Answer}
    (goes : Goes (step Cin.read accepts) (.asking refused (.good text fun _ => 0)) state) :
    ∃ refused' input, state = .asking refused' input := by
  obtain ⟨rest, -, extracted⟩ := InputStream.extractInt_of_words split
  have taken : (Cin.good text fun _ => 0).read =
      some (0, ⟨⟨rest, rest.isEmpty, true⟩, fun _ => 0⟩) := by
    simp only [Cin.read, Cin.good, extracted, malformed, InputStream.storedInt, Option.getD_some]
  rcases goes.cases_head with rfl | ⟨next, stepped, goes⟩
  · exact ⟨refused, _, rfl⟩
  · cases Option.some.inj ((step_refused taken zero refused).symm.trans stepped)
    obtain ⟨refused', rfl⟩ := asking_of_goes_fail zero rfl goes
    exact ⟨refused', _, rfl⟩

/-- A number scanned at the start of the first word leaves the rest of the word, if any. -/
private theorem astray_scanned {word left : List Char} {front : List (List Char)} {n : Int}
    (solid : ∀ c ∈ word, isSpaceChar c = false) (scanned : scanInt word = (some n, left))
    (fits : FitsInt n) (refuses : accepts n = none)
    (stuck : ∃ other ∈ word :: front, ¬ Passes accepts other) :
    ∃ other ∈ words left ++ front, ¬ Passes accepts other := by
  obtain ⟨other, member, notPasses⟩ := stuck
  rcases List.mem_cons.mp member with rfl | inside
  · have leftStuck := not_passes_of_scanned scanned fits refuses notPasses
    have nonempty : left ≠ [] := by
      rintro rfl
      exact leftStuck ⟨[], .nil, by simp⟩
    have suffix : left <:+ other := by
      have suffix := scanInt_suffix other
      rwa [scanned] at suffix
    refine ⟨left, ?_, leftStuck⟩
    rw [words_of_solid fun c member => solid c (suffix.subset member), if_neg nonempty]
    exact List.mem_cons_self
  · exact ⟨other, List.mem_append_right _ inside, notPasses⟩

/-- A prompt that has gone astray does not find its way back. -/
theorem astray_step {expected : List (List Char)} (more : expected ≠ [])
    (zero : accepts 0 = none) (state next : Prompt Cin Answer)
    (astray : Astray accepts expected state) (stepped : step Cin.read accepts state = some next) :
    Astray accepts expected next := by
  cases state with
  | answered answer cin => cases stepped
  | asking refused cin =>
      obtain ⟨held, failed | ⟨text, front, good, split, stuck⟩⟩ := astray
      · rw [step_fail zero held failed, Option.some.injEq] at stepped
        subst stepped
        exact ⟨rfl, .inl failed⟩
      · obtain ⟨stream, held'⟩ := cin
        subst held good
        cases front with
        | nil => simp at stuck
        | cons word front =>
            rw [List.cons_append] at split
            have member : word ∈ words text := by
              rw [split]
              exact List.mem_cons_self
            have solid := solid_of_mem_words member
            by_cases scans : ∃ n left, scanInt word = (some n, left) ∧ FitsInt n
            · obtain ⟨n, left, scanned, fits⟩ := scans
              obtain ⟨rest, eof, remaining, unended, taken⟩ :=
                Cin.read_of_words split scanned fits fun _ => 0
              rcases step_cases taken stepped with ⟨answer, -, rfl⟩ | ⟨refuses, rfl⟩
              · trivial
              · have good : eof = false := unended (by simp [remaining, more])
                rw [← List.append_assoc] at remaining
                exact ⟨rfl, .inr ⟨rest, _, by rw [good], remaining,
                  astray_scanned solid scanned fits refuses stuck⟩⟩
            · obtain ⟨stored, rest, eof, taken⟩ := Cin.read_of_not_scanned split
                (fun n left scanned fits => scans ⟨n, left, scanned, fits⟩) fun _ => 0
              rcases step_cases taken stepped with ⟨answer, -, rfl⟩ | ⟨-, rfl⟩
              · trivial
              · exact ⟨rfl, .inl rfl⟩

/-- **Getting past words.** A prompt on a stream refuses the words before a number that it
accepts, and takes that number, exactly when each of these words passes. -/
theorem reaches_iff (zero : accepts 0 = none) {text word : List Char}
    {front later : List (List Char)} (split : words text = front ++ word :: later) {n : Int}
    (scanned : scanInt word = (some n, [])) (fits : FitsInt n) {answer : Answer}
    (accepted : accepts n = some answer) {right : Answer → Prop} (isRight : right answer) :
    Reaches accepts text word later right ↔ ∀ word ∈ front, Passes accepts word := by
  have more : word :: later ≠ [] := List.cons_ne_nil _ _
  constructor
  · intro reaches
    by_contra stuck
    simp only [not_forall, exists_prop] at stuck
    obtain ⟨refused, ready, answer, after, goes, remaining, stepped, -, -⟩ := reaches fun _ => 0
    have start : Astray accepts (word :: later) (.asking 0 (.good text fun _ => 0)) :=
      ⟨rfl, .inr ⟨text, front, rfl, split, stuck⟩⟩
    -- Where the word is the next one, the stream has failed: the words before it are gone.
    obtain ⟨held, failed | ⟨text', front', good, split', other, member, -⟩⟩ :=
      goes.invariant (astray_step more zero) start
    · rw [step_fail zero held failed] at stepped
      cases stepped
    · rw [good] at remaining
      have same : front' ++ word :: later = word :: later := split'.symm.trans remaining
      rw [List.append_left_eq_self.mp same] at member
      cases member
  · intro pass held
    obtain ⟨refused, ready, held', remaining, goes⟩ := goes_words pass more split 0 held
    obtain ⟨rest, eof, left, -, taken⟩ := Cin.read_of_words remaining scanned fits held'
    exact ⟨refused, _, answer, _, goes, remaining, step_accepted taken accepted refused, left,
      isRight⟩

end Prompt

end CPrograms.Library
