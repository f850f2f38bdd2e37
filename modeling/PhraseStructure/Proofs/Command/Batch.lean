import Mathlib
import PhraseStructure.Proofs.Command.Streams
import PhraseStructure.Proofs.Text.Chunks
import PhraseStructure.Proofs.Text.Lines

/-!
# Sentences on the lines of the input

The command can be given a sentence, or else takes each line of its input for
one. A line that is not text ends the reading, and lines of blanks alone do not
count. The others show what the runs show that are given one of them each: a
line that fails is counted, and neither stops the reading nor changes what
later lines show.

The count has 32 bits and a sign, and wraps around. So the number at the end is
that of the failures only if there are fewer than `2 ^ 31`. Beyond that it is
another number, or there is none and the run succeeds.
-/

namespace PhraseStructure

namespace Command

/-! ## Lines that are sentences -/

def isText (row : ByteArray) : Bool := (String.fromUTF8? row).isSome

/-- The lines in front of the first that is not text, without those of blanks
alone. -/
def sentences (rows : List ByteArray) : List String :=
  ((rows.takeWhile isText).filterMap String.fromUTF8?).filter fun line ↦
    !line.toList.all Text.isBlank

variable {row : ByteArray} {rows : List ByteArray} {line : String}

theorem sentences_nil : sentences [] = [] := rfl

theorem sentences_of_not_isText (h : isText row = false) : sentences (row :: rows) = [] := by
  simp [sentences, h]

theorem sentences_of_isText (h : isText row = true) :
    sentences (row :: rows) = sentences [row] ++ sentences rows := by
  simp only [sentences, List.takeWhile_cons, h, if_true, List.takeWhile_nil]
  rw [← List.singleton_append, List.filterMap_append, List.filter_append]

theorem sentences_singleton (h : String.fromUTF8? row = some line) :
    sentences [row] = if Text.chunks line = [] then [] else [line] := by
  have hkept : ([row].takeWhile isText).filterMap String.fromUTF8? = [line] := by simp [isText, h]
  simp only [sentences, hkept, Text.chunks_eq_nil_iff]
  cases hall : line.toList.all Text.isBlank with
  | true => simp [hall]
  | false => simp [hall]

/-! ## Sentences on their own -/

section

variable (runs : String → Transcript) (lines more : List String)

/-- The sentences whose run succeeds. -/
def accepted : List String := lines.filter fun line ↦ (runs line).code = 0

def rejected : List String := lines.filter fun line ↦ (runs line).code ≠ 0

def answers : String := String.join ((accepted runs lines).map fun line ↦ (runs line).stdout)

/-- Each complaint is put behind the sentence that it is about. -/
def complaints : String :=
  String.join ((rejected runs lines).map fun line ↦ Text.trim line ++ ": " ++ (runs line).stderr)

theorem rejected_nil : rejected runs [] = [] := rfl

theorem rejected_append :
    rejected runs (lines ++ more) = rejected runs lines ++ rejected runs more :=
  List.filter_append _ _

theorem answers_append :
    answers runs (lines ++ more) = answers runs lines ++ answers runs more := by
  simp [answers, accepted]

theorem complaints_append :
    complaints runs (lines ++ more) = complaints runs lines ++ complaints runs more := by
  simp [complaints, rejected_append]

end

section

variable (strategy : Strategy) (g : Grammar)

/-- What parsing a sentence on its own shows. -/
def alone (sentence : String) : Transcript :=
  Transcript.ofRun (Output.detail none) (parseSentence strategy g sentence)

/-- A tree is printed, and a fault is complained of. -/
theorem alone_eq :
    alone strategy g line =
      match (strategy.parse g (Text.chunks line)).outcome with
      | .ok tree => ⟨0, tree.render ++ "\n", ""⟩
      | .error fault => ⟨1, "", fault.message ++ "\n"⟩ := by
  have hparse := shows_report ParseFault.message (strategy.parse g (Text.chunks line))
  cases houtcome : (strategy.parse g (Text.chunks line)).outcome with
  | ok tree =>
      rw [houtcome] at hparse
      exact (hparse.bind_silent (shows_print _)).transcript_of_ok
  | error fault =>
      rw [houtcome] at hparse
      have hfailed := (hparse.bind_of_error fun tree ↦ printLine tree.render).transcript_of_error
      rw [String.empty_append] at hfailed
      exact hfailed

end

/-! ## The reading -/

variable {strategy : Strategy} {g : Grammar}

theorem add_length_nil (failures : Int32) :
    failures + .ofNat ([] : List String).length = failures :=
  Int32.add_zero failures

/-- One line shows what it shows on its own, and is counted if that is a complaint. -/
theorem shows_parseLine (h : isText row = true) (failures : Int32) :
    Shows (parseLine strategy g failures row) (answers (alone strategy g) (sentences [row]))
      (complaints (alone strategy g) (sentences [row]))
      (.ok (failures + .ofNat (rejected (alone strategy g) (sentences [row])).length)) := by
  obtain ⟨line, hline⟩ := Option.isSome_iff_exists.mp h
  rw [sentences_singleton hline, parseLine, hline]
  by_cases hblank : Text.chunks line = []
  · simp only [hblank, if_true, List.isEmpty_nil, rejected_nil, add_length_nil]
    exact shows_pure failures
  have hfilled := List.isEmpty_eq_false_iff.mpr hblank
  have halone := @alone_eq line strategy g
  simp only [hblank, if_false, hfilled]
  cases hparse : (strategy.parse g (Text.chunks line)).outcome with
  | ok tree =>
      simp only [hparse] at halone
      have hanswer : answers (alone strategy g) [line] = tree.render ++ "\n" := by
        simp [answers, accepted, halone]
      have hnone : rejected (alone strategy g) [line] = [] := by simp [rejected, halone]
      rw [hanswer, complaints, hnone, add_length_nil]
      exact shows_concat _ _ _
  | error fault =>
      simp only [hparse] at halone
      have hnone : accepted (alone strategy g) [line] = [] := by simp [accepted, halone]
      have hone : rejected (alone strategy g) [line] = [line] := by simp [rejected, halone]
      have hcomplaint : complaints (alone strategy g) [line] =
          Text.trim line ++ ": " ++ fault.message ++ "\n" := by
        simp [complaints, hone, halone, String.append_assoc]
      rw [answers, hnone, hcomplaint, hone]
      exact shows_concat _ _ _

theorem shows_lines (rows : List ByteArray) (failures : Int32) :
    Shows (rows.foldlM (parseLine strategy g) failures)
      (answers (alone strategy g) (sentences rows)) (complaints (alone strategy g) (sentences rows))
      (if rows.all isText then
        .ok (failures + .ofNat (rejected (alone strategy g) (sentences rows)).length)
      else .error FileFault.invalidText.text) := by
  -- The lines start with the failures that are counted so far.
  induction rows generalizing failures with
  | nil =>
      rw [List.all_nil, if_pos rfl, sentences_nil, rejected_nil, add_length_nil]
      exact shows_pure _
  | cons row rows ih =>
      rw [List.foldlM_cons, List.all_cons]
      cases hrow : isText row with
      | false =>
          have hnone : String.fromUTF8? row = none := by simpa [isText] using hrow
          rw [sentences_of_not_isText hrow, Bool.false_and, if_neg Bool.false_ne_true, parseLine,
            hnone]
          exact (shows_fail _).bind_of_error _
      | true =>
          rw [sentences_of_isText hrow, answers_append, complaints_append, rejected_append,
            List.length_append, Int32.ofNat_add, ← Int32.add_assoc, Bool.true_and]
          exact (shows_parseLine hrow failures).bind (ih _)

/-- The number that the count comes to after some failures. -/
def wrapped (failures : Nat) : Int := (Int32.ofNat failures).toInt

/-- How the reading of lines ends if some of their sentences fail. -/
def verdict (rows : List ByteArray) (failures : Nat) : Except String Unit :=
  if rows.all isText then
    if wrapped failures ≤ 0 then .ok ()
    else .error (toString (wrapped failures) ++ " sentence(s) failed to parse")
  else .error "stream did not contain valid UTF-8"

theorem shows_parseInput (input : ByteArray) :
    let rows := Text.byteLines input
    Shows (parseInput strategy g input) (answers (alone strategy g) (sentences rows))
      (complaints (alone strategy g) (sentences rows))
      (verdict rows (rejected (alone strategy g) (sentences rows)).length) := by
  intro rows
  have hlines : Shows (rows.foldlM (parseLine strategy g) 0) _ _ _ := shows_lines rows 0
  rw [verdict]
  split
  next hall =>
      rw [if_pos hall, Int32.zero_add] at hlines
      -- Only the count is passed on, and it is compared with zero.
      apply hlines.bind_of_silent
      split
      next hsome =>
          have hpos : ¬ wrapped (rejected (alone strategy g) (sentences rows)).length ≤ 0 :=
            Int.not_le.mpr (Int32.lt_iff_toInt_lt.mp hsome)
          rw [if_neg hpos]
          exact shows_fail _
      next hnone =>
          have hle : wrapped (rejected (alone strategy g) (sentences rows)).length ≤ 0 :=
            Int.not_lt.mp fun hpos ↦ hnone (Int32.lt_iff_toInt_lt.mpr hpos)
          rw [if_pos hle]
          exact shows_pure _
  next hbroken =>
      rw [if_neg hbroken] at hlines
      exact hlines.bind_of_error _

/-- What the runs on the sentences of some lines show, put together. How many have
failed is remarked in the given numbers. -/
def together (number : Nat → Int) (runs : String → Transcript) (rows : List ByteArray) :
    Transcript :=
  let failed := number (rejected runs (sentences rows)).length
  { code := if failed ≤ 0 ∧ rows.all isText then 0 else 1
    stdout := answers runs (sentences rows)
    stderr := complaints runs (sentences rows) ++
      if rows.all isText then
        if failed ≤ 0 then "" else toString failed ++ " sentence(s) failed to parse\n"
      else "stream did not contain valid UTF-8\n" }

theorem transcript_parseInput (input : ByteArray) :
    Transcript.ofRun (Output.detail none) (parseInput strategy g input) =
      together wrapped (alone strategy g) (Text.byteLines input) := by
  have hinput := @shows_parseInput strategy g input
  simp only [verdict] at hinput
  rw [together]
  split at hinput
  next hall =>
      split at hinput
      next hnone =>
          rw [hinput.transcript_of_ok]
          simp [hall, hnone]
      next hsome =>
          rw [hinput.transcript_of_error]
          simp [hall, hsome, String.append_assoc]
  next hbroken =>
      rw [hinput.transcript_of_error]
      simp [hbroken]

/-! ## The number of failures -/

theorem wrapped_eq_iff {failures : Nat} : wrapped failures = failures ↔ failures < 2 ^ 31 := by
  constructor
  · intro hsame
    have hlt := Int32.toInt_lt (.ofNat failures)
    rw [← wrapped, hsame] at hlt
    exact_mod_cast hlt
  · exact Int32.toInt_ofNat_of_lt

/-- The wrapped count says what a count without a limit says, as long as it is the
number of the failures. -/
theorem together_wrapped_eq_iff {runs : String → Transcript} :
    together wrapped runs rows = together Int.ofNat runs rows ↔
      (rows.all isText = true → (rejected runs (sentences rows)).length < 2 ^ 31) := by
  simp only [together]
  generalize (rejected runs (sentences rows)).length = failures
  constructor
  · intro hsame hall
    obtain ⟨hcode, -, hstderr⟩ := Transcript.mk.inj hsame
    simp only [hall, and_true, if_true] at hcode hstderr
    by_cases hnone : Int.ofNat failures ≤ 0
    · have hzero : failures = 0 := Int.natCast_nonpos_iff.mp hnone
      rw [hzero]
      decide
    · have hsome : ¬ wrapped failures ≤ 0 := by
        intro hle
        rw [if_pos hle, if_neg hnone] at hcode
        cases hcode
      rw [if_neg hsome, if_neg hnone, String.append_right_inj, String.append_left_inj] at hstderr
      exact wrapped_eq_iff.mp (Int.repr_inj.mp hstderr)
  · intro hcount
    cases hall : rows.all isText with
    | true =>
        rw [wrapped_eq_iff.mpr (hcount hall)]
        rfl
    | false => simp

theorem together_wrapped_of_nonpos {runs : String → Transcript} (hall : rows.all isText = true)
    (hcount : wrapped (rejected runs (sentences rows)).length ≤ 0) :
    together wrapped runs rows =
      ⟨0, answers runs (sentences rows), complaints runs (sentences rows)⟩ := by
  simp [together, hall, hcount]

end Command

namespace Transcript

open Command

variable {file : String} {read : String → Except FileFault ByteArray} {g : Grammar}

/-- The grammar is loaded and the strategy named without anything being shown. -/
theorem ofRequest_parse (hloads : (Grammar.ofFile file (read file)).outcome = .ok g)
    (strategy : Strategy) (start sentence : Option String) (input : ByteArray)
    (fresh : WordSource) :
    ofRequest (.run (.parse file sentence strategy start)) none read input fresh =
      match sentence with
      | some sentence => alone strategy (g.startingAt (start.getD g.start)) sentence
      | none =>
          ofRun (Output.detail none)
            (parseInput strategy (g.startingAt (start.getD g.start)) input) := by
  have hprepare := shows_prepare hloads start
  have hnamed := shows_reported (.parsing strategy.title)
  cases sentence <;> exact (hprepare.transcript_bind _).trans (hnamed.transcript_bind _)

/-- Taking sentences from the input shows what the runs show that are given one of
them each. These runs do not read the input. -/
theorem ofRequest_input (hloads : (Grammar.ofFile file (read file)).outcome = .ok g)
    (strategy : Strategy) (start : Option String) (input elsewhere : ByteArray)
    (fresh other : WordSource) :
    ofRequest (.run (.parse file none strategy start)) none read input fresh =
      together wrapped
        (fun line ↦
          ofRequest (.run (.parse file (some line) strategy start)) none read elsewhere other)
        (Text.byteLines input) := by
  have hruns : (fun line ↦ ofRequest (.run (.parse file (some line) strategy start)) none read
      elsewhere other) = alone strategy (g.startingAt (start.getD g.start)) :=
    funext fun line ↦ ofRequest_parse hloads strategy start (some line) elsewhere other
  rw [hruns, ofRequest_parse hloads strategy start none input fresh]
  exact transcript_parseInput input

/-- Taking sentences from the input shows what the runs show that are given one of
them each, put together. Those runs print a tree or complain of a fault, and a
complaint is put behind its sentence without the blanks around that. The number
of failures is the right one exactly if there are fewer than `2 ^ 31`, or if a
line that is not text comes before it is said. -/
theorem ofRequest_input_eq_iff (hloads : (Grammar.ofFile file (read file)).outcome = .ok g)
    (strategy : Strategy) (start : Option String) (input elsewhere : ByteArray)
    (fresh other : WordSource) :
    let runs := fun line ↦
      ofRequest (.run (.parse file (some line) strategy start)) none read elsewhere other
    let rows := Text.byteLines input
    let batch := ofRequest (.run (.parse file none strategy start)) none read input fresh
    (∀ line, runs line =
      match (strategy.parse (g.startingAt (start.getD g.start)) (Text.chunks line)).outcome with
      | .ok tree => ⟨0, tree.render ++ "\n", ""⟩
      | .error fault => ⟨1, "", fault.message ++ "\n"⟩) ∧
    (∀ line, Text.IsCore line (Text.trim line)) ∧
    batch = together wrapped runs rows ∧
    (batch = together Int.ofNat runs rows ↔
      (rows.all isText = true → (rejected runs (sentences rows)).length < 2 ^ 31)) := by
  intro runs rows batch
  have hbatch : batch = together wrapped runs rows :=
    ofRequest_input hloads strategy start input elsewhere fresh other
  refine ⟨fun line ↦ ?_, Text.isCore_trim, hbatch, ?_⟩
  · exact (ofRequest_parse hloads strategy start (some line) elsewhere other).trans
      (alone_eq strategy _)
  · rw [hbatch]
    exact together_wrapped_eq_iff

/-- A grammar of two sentences. -/
def pairs : ByteArray := "S -> \"a\" B\nB -> \"b\" | \"c\"\n".toUTF8

/-- Two sentences, with blanks alone and a failure between them. -/
def mixedLines : ByteArray := "a b\r\n \n\tb  \r\na c".toUTF8

def brokenLines : ByteArray := "a b\nb\n".toUTF8 ++ ⟨#[0xff, 0x0a]⟩ ++ "a c\n".toUTF8

theorem exists_ofFile_pairs : ∃ g, (Grammar.ofFile "pairs" (.ok pairs)).outcome = .ok g := by
  have hloads : (Grammar.ofFile "pairs" (.ok pairs)).outcome.toOption.isSome = true := by
    decide +kernel
  cases houtcome : (Grammar.ofFile "pairs" (.ok pairs)).outcome with
  | ok g => exact ⟨g, rfl⟩
  | error fault =>
      rw [houtcome] at hloads
      cases hloads

theorem ofRequest_input_eq_iff_pairs :
    let shown := fun input ↦
      ofRequest (.run (.parse "pairs" none .topDown none)) none (fun _ ↦ .ok pairs) input
        (.ofWords [])
    ((shown mixedLines).code = 1 ∧
      (shown mixedLines).stdout = "(S 'a' (B 'b'))\n(S 'a' (B 'c'))\n" ∧
      (shown mixedLines).stderr =
        "b: Input does not match any rule for `S`\n1 sentence(s) failed to parse\n") ∧
    (shown brokenLines).code = 1 ∧ (shown brokenLines).stdout = "(S 'a' (B 'b'))\n" ∧
      (shown brokenLines).stderr =
        "b: Input does not match any rule for `S`\nstream did not contain valid UTF-8\n" := by
  intro shown
  obtain ⟨g, hloads⟩ := exists_ofFile_pairs
  have hmixed : shown mixedLines = together Int.ofNat _ (Text.byteLines mixedLines) :=
    (@ofRequest_input_eq_iff "pairs" (fun _ ↦ .ok pairs) g hloads .topDown none mixedLines .empty
      (.ofWords []) (.ofWords [])).2.2.2.mpr fun _ ↦ by decide +kernel
  have hbroken : shown brokenLines = together Int.ofNat _ (Text.byteLines brokenLines) :=
    (@ofRequest_input_eq_iff "pairs" (fun _ ↦ .ok pairs) g hloads .topDown none brokenLines .empty
      (.ofWords []) (.ofWords [])).2.2.2.mpr fun _ ↦ by decide +kernel
  rw [hmixed, hbroken]
  refine ⟨⟨?_, ?_, ?_⟩, ?_, ?_, ?_⟩ <;> decide +kernel

/-- The same sentence on each line, which is a failure. -/
def failingLines (count : Nat) : ByteArray :=
  ⟨((List.replicate count [98]).flatMap fun row ↦ row ++ [10]).toArray⟩

theorem byteLines_failingLines (count : Nat) :
    Text.byteLines (failingLines count) = List.replicate count ⟨#[98]⟩ := by
  rw [failingLines, Text.byteLines_flatMap, List.map_replicate]
  · intro row hmem
    rw [List.eq_of_mem_replicate hmem]
    decide
  · intro row hmem
    rw [List.eq_of_mem_replicate hmem]
    decide

theorem fromUTF8?_failingLine : String.fromUTF8? ⟨#[98]⟩ = some "b" := by decide +kernel

theorem all_isText_failingLines (count : Nat) :
    (Text.byteLines (failingLines count)).all isText = true := by
  rw [byteLines_failingLines, List.all_eq_true]
  intro row hmem
  rw [List.eq_of_mem_replicate hmem]
  exact Option.isSome_of_eq_some fromUTF8?_failingLine

theorem sentences_failingLines (count : Nat) :
    sentences (Text.byteLines (failingLines count)) = List.replicate count "b" := by
  have hone : sentences [⟨#[98]⟩] = ["b"] :=
    (sentences_singleton fromUTF8?_failingLine).trans (if_neg (by decide))
  rw [byteLines_failingLines]
  induction count with
  | zero => rfl
  | succ count ih =>
      have htext : isText ⟨#[98]⟩ = true := Option.isSome_of_eq_some fromUTF8?_failingLine
      rw [List.replicate_succ, sentences_of_isText htext, hone, ih]
      rfl

theorem length_rejected_failingLines {runs : String → Transcript} (hfails : (runs "b").code ≠ 0)
    (count : Nat) :
    (rejected runs (sentences (Text.byteLines (failingLines count)))).length = count := by
  rw [sentences_failingLines, rejected, List.filter_replicate_of_pos (by simpa using hfails),
    List.length_replicate]

/-- So many lines fail that the count is negative: nothing is said of their number,
and the run succeeds. -/
theorem ofRequest_failingLines :
    let runs := fun line ↦
      ofRequest (.run (.parse "pairs" (some line) .topDown none)) none (fun _ ↦ .ok pairs) .empty
        (.ofWords [])
    let rows := Text.byteLines (failingLines (2 ^ 31))
    let batch :=
      ofRequest (.run (.parse "pairs" none .topDown none)) none (fun _ ↦ .ok pairs)
        (failingLines (2 ^ 31)) (.ofWords [])
    rows.all isText = true ∧ (rejected runs (sentences rows)).length = 2 ^ 31 ∧ batch.code = 0 ∧
      batch.stderr = complaints runs (sentences rows) ∧
      batch ≠ together Int.ofNat runs rows := by
  intro runs rows batch
  obtain ⟨g, hloads⟩ := exists_ofFile_pairs
  have hbatch : batch = together wrapped runs rows :=
    @ofRequest_input "pairs" (fun _ ↦ .ok pairs) g hloads .topDown none _ _ _ _
  have hall : rows.all isText = true := all_isText_failingLines _
  have hfails : (runs "b").code ≠ 0 := by decide +kernel
  have hcount : (rejected runs (sentences rows)).length = 2 ^ 31 :=
    length_rejected_failingLines hfails _
  -- From here on it does not matter which lines they are.
  clear_value runs rows batch
  have hnegative : wrapped (rejected runs (sentences rows)).length ≤ 0 := by
    rw [hcount]
    decide
  have hsilent := hbatch.trans (together_wrapped_of_nonpos hall hnegative)
  refine ⟨hall, hcount, congrArg code hsilent, congrArg stderr hsilent, fun hsame ↦ ?_⟩
  have hfew := together_wrapped_eq_iff.mp (hbatch.symm.trans hsame) hall
  exact Nat.ne_of_lt hfew hcount

end Transcript

end PhraseStructure
