import Mathlib.Data.List.Basic
import Scriptlet.CommandLine.Execute
import Scriptlet.Proofs.Scopes.Refinement

/-!
# The command line runs what it reads

The command line program reads, shows and runs a source in steps of its own. What it leaves behind is
nevertheless what the run of the source gives: its printed text, its value or its error, and the exit
code that goes with them (`Result.ofRun`). How much is logged changes what a run is told to report, but
neither how it ends nor what it prints (`runSource_journal`), so that options and filters only add to
standard error.

* `Options.dumpTree_iff`: the program is shown exactly if `--dump-ast` is among the options.
* `Filter.silent_upTo_iff`, `Filter.choose_name`: the plain levels at which nothing is logged.
* `executeText_eq`: the steps of the command line are a run of the source.
* `Invocation.run_agrees`: what a process leaves behind, for every source.
-/

namespace Scriptlet

/-! ### Runs of source text -/

variable {fuel fuel' : Nat} {source : String} {m : Machine} {result : Except ScriptError Value}

/-- The ending of an outcome with its sink shows in what is seen of it on the scopes. -/
theorem Outcome.ended?_sink {α : Type} (outcome : Outcome α) :
    (outcome.ended?.map fun (result, m) => (result, m.sink)) =
      outcome.onScopes.map fun (result, s) => (result.mapError .eval, s.sink) := by
  cases outcome <;> rfl

/-- How a run ends and what it prints does not depend on who listens. -/
theorem runSource_journal (fuel : Nat) (source : String) (sink : Sink) (journal journal' : Journal) :
    ((runSource fuel source (.fresh sink journal)).map fun (result, m) => (result, m.sink)) =
      (runSource fuel source (.fresh sink journal')).map fun (result, m) => (result, m.sink) := by
  unfold runSource
  cases Program.ofString source with
  | error reason => rfl
  | ok p =>
    have hscopes : ∀ j, (runAtFuel fuel p (.fresh sink j)).onScopes =
        Scoped.runFrom (Scoped.runAtFuel fuel p) (.fresh sink) := by
      intro j
      rw [← Machine.scopes_fresh sink j]
      exact (runAtFuel_refines fuel p).agrees _ Environment.rooted_initial
    simp only [runProgram, Outcome.ended?_sink, hscopes]

/-- Source text that has been run is run alike at any greater fuel. -/
theorem runSource_of_le (h : fuel ≤ fuel') {start : Machine}
    (hrun : runSource fuel source start = some (result, m)) :
    runSource fuel' source start = some (result, m) := by
  unfold runSource at hrun ⊢
  cases hparse : Program.ofString source with
  | error reason => rwa [hparse] at hrun
  | ok p =>
    rw [hparse] at hrun
    have hends : runAtFuel fuel p start ≠ .outOfFuel := by
      intro hout
      simp [runProgram, hout, Outcome.ended?] at hrun
    simpa only [runProgram, runAtFuel_below h p start hends] using hrun

namespace CommandLine

/-! ### Options -/

/-- A sequence of readings that succeeds has a first part that does. -/
theorem exists_of_bind_eq_ok {ε α β : Type} {first : Except ε α} {rest : α → Except ε β} {b : β}
    (h : first >>= rest = .ok b) : ∃ a, first = .ok a ∧ rest a = .ok b := by
  cases first with
  | error reason => cases h
  | ok a => exact ⟨a, rfl, h⟩

/-- Only `dump-ast` in full asks for the program. -/
theorem Flag.ofLong?_eq_dumpTree_iff {name : String} :
    ofLong? name = some .dumpTree ↔ name = "dump-ast" := by
  unfold ofLong?
  split <;> simp_all

/-- No short option asks for the program. -/
theorem Flag.ofShort?_ne_dumpTree (letter : Char) : ofShort? letter ≠ some .dumpTree := by
  unfold ofShort?
  split <;> nofun

/-- The text of the option that asks for the program. -/
def treeOption : String := "--dump-ast"

/-- The text that ends the options. -/
def separator : String := "--"

/-- Only two dashes end the options. -/
theorem Argument.ofString_eq_endOfOptions_iff {text : String} :
    ofString text = .endOfOptions ↔ text = separator := by
  rw [← String.toList_inj]
  unfold ofString
  split <;> simp_all [separator]

/-- Flags ask for the program exactly if they are its option. -/
theorem Argument.dumpTree_mem_iff {text : String} {flags : List (Option Flag)}
    (h : ofString text = .flags flags) : some .dumpTree ∈ flags ↔ text = treeOption := by
  have htree : treeOption.toList = '-' :: '-' :: "dump-ast".toList := rfl
  rw [← String.toList_inj]
  unfold ofString at h
  split at h
  case h_1 => cases h
  case h_2 name _ htext =>
    cases h
    rw [List.mem_singleton, eq_comm, Flag.ofLong?_eq_dumpTree_iff, ← String.toList_inj,
      String.toList_ofList, htext, htree]
    simp
  case h_3 _ letter letters _ hletter htext =>
    cases h
    have hother : text.toList ≠ treeOption.toList := by
      rw [htext, htree]
      rintro ⟨⟩
      exact hletter rfl
    simp only [List.mem_map, Flag.ofShort?_ne_dumpTree, and_false, exists_false, hother]
  case h_4 => cases h

/-- A file name is not the option that asks for the program. -/
theorem Argument.ne_treeOption_of_operand {text operand : String}
    (h : ofString text = .operand operand) : text ≠ treeOption := by
  rintro rfl
  cases h

namespace Options

variable {o o' : Options}

/-- A check of the input changes no option. -/
theorem eq_of_checkInput (h : o.checkInput = .ok o') : o' = o := by
  unfold checkInput at h
  split at h
  · cases h
  · exact (Except.ok.inj h).symm

/-- A file name does not ask for the program. -/
theorem dumpTree_of_addOperand {text : String} (h : o.addOperand text = .ok o') :
    o'.dumpTree = o.dumpTree := by
  unfold addOperand at h
  split at h
  · cases h
  · rw [← Except.ok.inj h]

/-- File names after the end of the options do not ask for the program. -/
theorem dumpTree_of_readOperands {texts : List String} (h : o.readOperands texts = .ok o') :
    o'.dumpTree = o.dumpTree := by
  induction texts generalizing o with
  | nil => rw [eq_of_checkInput h]
  | cons text rest ih =>
    obtain ⟨o₁, hadd, hrest⟩ := exists_of_bind_eq_ok h
    rw [ih hrest, dumpTree_of_addOperand hadd]

/-- A flag asks for the program exactly if it is the one that does, or if this was asked before. -/
theorem dumpTree_of_addFlag {flag : Option Flag} (h : o.addFlag flag = .ok o') :
    o'.dumpTree ↔ o.dumpTree ∨ flag = some .dumpTree := by
  unfold addFlag at h
  split at h
  · split at h
    · cases h
    · simp [← Except.ok.inj h]
  · simp [← Except.ok.inj h]
  · cases h
  · cases h
  · cases h

/-- Several flags ask for the program exactly if one of them does, or if this was asked before. -/
theorem dumpTree_of_addFlags {flags : List (Option Flag)} (h : o.addFlags flags = .ok o') :
    o'.dumpTree ↔ o.dumpTree ∨ some .dumpTree ∈ flags := by
  induction flags generalizing o with
  | nil => simp [← Except.ok.inj h]
  | cons flag flags ih =>
    obtain ⟨o₁, hadd, hrest⟩ := exists_of_bind_eq_ok h
    rw [ih hrest, dumpTree_of_addFlag hadd, List.mem_cons, or_assoc, eq_comm (a := flag)]

/-- The program is asked for by its option, among the arguments before the separator. -/
theorem dumpTree_of_readArguments {arguments : List String}
    (h : o.readArguments arguments = .ok o') :
    o'.dumpTree ↔ o.dumpTree ∨ treeOption ∈ arguments.takeWhile (· != separator) := by
  induction arguments generalizing o with
  | nil => simp [eq_of_checkInput h]
  | cons text rest ih =>
    rw [readArguments] at h
    by_cases hsep : text = separator
    · rw [Argument.ofString_eq_endOfOptions_iff.mpr hsep] at h
      simp [dumpTree_of_readOperands h, hsep]
    · rw [List.takeWhile_cons_of_pos (by simpa using hsep), List.mem_cons]
      cases harg : Argument.ofString text with
      | endOfOptions => exact absurd (Argument.ofString_eq_endOfOptions_iff.mp harg) hsep
      | operand operand =>
        rw [harg] at h
        obtain ⟨o₁, hadd, hrest⟩ := exists_of_bind_eq_ok h
        have hother : treeOption ≠ text := (Argument.ne_treeOption_of_operand harg).symm
        rw [ih hrest, dumpTree_of_addOperand hadd]
        simp [hother]
      | flags flags =>
        rw [harg] at h
        obtain ⟨o₁, hcheck, h⟩ := exists_of_bind_eq_ok h
        obtain ⟨o₂, hadd, hrest⟩ := exists_of_bind_eq_ok h
        rw [ih hrest, dumpTree_of_addFlags hadd, eq_of_checkInput hcheck,
          Argument.dumpTree_mem_iff harg, or_assoc, eq_comm (a := text)]

/-- The program is shown exactly if its option is among the arguments before the separator. -/
theorem dumpTree_iff {arguments : List String} (h : ofArguments arguments = .ok o) :
    o.dumpTree ↔ treeOption ∈ arguments.takeWhile (· != separator) := by
  rw [dumpTree_of_readArguments h]
  simp [initial]

end Options

/-! ### Filters -/

/-- The name of a level. -/
def Level.name : Level → String
  | off => "off"
  | error => "error"
  | warn => "warn"
  | info => "info"
  | debug => "debug"
  | trace => "trace"

namespace Filter

/-- No line of a run is shown: neither the one about the program that was read, nor any of those that
the run reports. -/
def Silent (f : Filter) : Prop :=
  (f.levelOf programName).enabled .info = false ∧ (f.levelOf reporterName).enabled .debug = false

/-- Of the plain levels those up to `warn` show nothing. -/
theorem silent_upTo_iff {level : Level} : (upTo level).Silent ↔ level.rank ≤ Level.warn.rank := by
  rw [Silent, levelOf_upTo, levelOf_upTo]
  cases level <;> decide

/-- The name of a level is a filter, which wins over the verbosity. -/
theorem choose_name (level : Level) (verbosity : Nat) :
    choose (some level.name) verbosity = upTo level := by
  cases level <;> rfl

/-- Without a filter from outside, the verbosity is the level. -/
theorem choose_none (verbosity : Nat) : choose none verbosity = upTo (.ofVerbosity verbosity) := rfl

/-- Without a filter from outside, nothing is shown unless more lines are asked for. -/
theorem silent_choose_none_iff {verbosity : Nat} : (choose none verbosity).Silent ↔ verbosity = 0 := by
  rw [choose_none, silent_upTo_iff]
  match verbosity with
  | 0 => decide
  | 1 => decide
  | 2 => decide
  | _ + 3 => simp [Level.ofVerbosity, Level.rank]

end Filter

/-! ### What a process leaves behind -/

/-- What a run of a source leaves behind: the text that it prints, followed by its value, or its error
after all other text on standard error. -/
def Result.ofRun (printed log : String) : Except ScriptError Value → Result
  | .ok v => ⟨0, printed ++ String.ofList (Value.text v) ++ "\n", log⟩
  | .error reason => ⟨1, printed, log ++ errorLine reason.message⟩

/-- The program that a source writes, printed, if it writes one. -/
def treeText (source : String) : String :=
  match Program.ofString source with
  | .ok p => p.display
  | .error _ => ""

/-- The journal of a run under a filter. -/
def Filter.journal (f : Filter) : Journal :=
  if (f.levelOf reporterName).enabled .debug then .attentive else .silent

/-- What is shown of a source between reading it and running it. -/
def preamble (f : Filter) (dumpTree : Bool) (source : String) : String :=
  match Program.ofString source with
  | .ok p =>
    (if (f.levelOf programName).enabled .info then parsedLine p ++ "\n" else "") ++
      if dumpTree then p.display else ""
  | .error _ => ""

/-- What is left after a run is its output, the log, and its result. -/
theorem finish_eq_ofRun (f : Filter) (before : String) (result : Except ScriptError Value)
    (m : Machine) : finish f before result m = .ofRun (String.ofList m.sink.contents)
      (before ++ asLines (logLines (f.levelOf reporterName) m.journal.events)) result := by
  cases result <;> rfl

/-- A run without reports leaves no lines. -/
theorem logLines_nil (limit : Level) : logLines limit [] = [] := by
  unfold logLines
  split <;> rfl

/-- Nothing is logged below the level that reports have. -/
theorem logLines_of_not_enabled {limit : Level} (h : limit.enabled .debug = false)
    (events : List Event) : logLines limit events = [] := by
  simp [logLines, h]

/-- The command line runs a source and finishes with what the run leaves. -/
theorem executeText_eq (fuel : Nat) (f : Filter) (dumpTree : Bool) (source : String) :
    executeText fuel f dumpTree source =
      (runSource fuel source (.fresh .unlimited f.journal)).map fun (result, m) =>
        finish f (preamble f dumpTree source) result m := by
  unfold executeText runSource preamble
  cases Program.ofString source with
  | ok p => rfl
  | error reason =>
    have hevents : f.journal.events = [] := by
      unfold Filter.journal
      split <;> rfl
    have hlog : asLines (logLines (f.levelOf reporterName) f.journal.events) = "" := by
      rw [hevents, logLines_nil]
      rfl
    simp only [Option.map_some, finish, Machine.fresh, hlog, ScriptError.message]
    rfl

/-- Before a run, a silent filter shows nothing but the program. -/
theorem preamble_of_silent {f : Filter} (h : f.Silent) (dumpTree : Bool) (source : String) :
    preamble f dumpTree source = if dumpTree then treeText source else "" := by
  unfold preamble treeText
  cases Program.ofString source with
  | ok p => simp [h.1]
  | error reason => simp

/-- The command line ends exactly if the run of the source does. -/
theorem isSome_executeText (f : Filter) (dumpTree : Bool) (source : String) (journal : Journal) :
    (executeText fuel f dumpTree source).isSome =
      (runSource fuel source (.fresh .unlimited journal)).isSome := by
  have hends := congrArg Option.isSome (runSource_journal fuel source .unlimited journal f.journal)
  rw [Option.isSome_map, Option.isSome_map] at hends
  rw [executeText_eq, Option.isSome_map, hends]

/-- The command line leaves behind what a run of the source gives. It keeps a journal of its own, but
the run at that journal ends alike. -/
theorem executeText_of_runSource {journal : Journal}
    (h : runSource fuel source (.fresh .unlimited journal) = some (result, m)) (f : Filter)
    (dumpTree : Bool) :
    ∃ log, executeText fuel f dumpTree source =
        some (.ofRun (String.ofList m.sink.contents) log result) ∧
      (f.Silent → log = if dumpTree then treeText source else "") := by
  have hprinted := runSource_journal fuel source .unlimited journal f.journal
  rw [h] at hprinted
  obtain ⟨⟨result', m'⟩, hends, heq⟩ := Option.map_eq_some_iff.mp hprinted.symm
  obtain ⟨rfl, hsink⟩ := Prod.mk.inj heq
  let lines := asLines (logLines (f.levelOf reporterName) m'.journal.events)
  refine ⟨preamble f dumpTree source ++ lines, ?_, fun hsilent => ?_⟩
  · rw [executeText_eq, hends, ← hsink]
    exact congrArg some (finish_eq_ofRun f _ result' m')
  · have hlines : lines = "" := congrArg asLines (logLines_of_not_enabled hsilent.2 _)
    rw [hlines, preamble_of_silent hsilent, String.append_empty]

/-- Source text that is written as bytes is read back. -/
theorem decode_toUTF8 (source : String) : decode source.toUTF8 = .ok source := by
  have htext : String.fromUTF8? source.toUTF8 = some source := dif_pos source.isValidUTF8
  rw [decode, htext]

/-- Bytes that are no text are not read. -/
theorem decode_of_ne {content : ByteArray} (h : ∀ source : String, content ≠ source.toUTF8) :
    decode content = .error .notText := by
  have htext : String.fromUTF8? content = none := dif_neg fun hvalid => h ⟨content, hvalid⟩ rfl
  rw [decode, htext]

namespace Invocation

variable {i : Invocation} {options : Options} {content : ByteArray}

/-- A process that finds its source runs the text that the source holds. -/
theorem run_of_text (hoptions : Options.ofArguments i.arguments = .ok options)
    (hcontent : i.read options.source = .ok source.toUTF8) (fuel : Nat) :
    i.run fuel = executeText fuel (Filter.choose i.logFilter options.verbosity) options.dumpTree
      source := by
  simp only [run, hoptions, execute, hcontent, Except.bind, decode_toUTF8]

/-- A file that is no text is not run. -/
theorem run_of_not_text (hoptions : Options.ofArguments i.arguments = .ok options)
    (hcontent : i.read options.source = .ok content)
    (h : ∀ source : String, content ≠ source.toUTF8) (fuel : Nat) :
    i.run fuel = some ⟨1, "", errorLine
      ("failed to read " ++ options.source.name ++ ": " ++ ReadError.notText.description)⟩ := by
  simp only [run, hoptions, execute, hcontent, Except.bind, decode_of_ne h]

/-- A process whose arguments name a source that it can read leaves behind what the run of the source
gives, whatever journal the run had. It ends exactly if the run does, with as much fuel or more. Its
standard output is the text that the run prints, followed by the value if there is one, and its standard
error ends with the error if there is one. If no line of the log is shown, nothing comes before that but
the program, if its option is given and the source writes one. Content that is no text gives an error
and no output. -/
theorem run_agrees (hoptions : Options.ofArguments i.arguments = .ok options)
    (hcontent : i.read options.source = .ok content) :
    (∀ (source : String) (journal : Journal), content = source.toUTF8 →
      (∀ fuel, (i.run fuel).isSome = (runSource fuel source (.fresh .unlimited journal)).isSome) ∧
      ∀ fuel fuel' result m, fuel ≤ fuel' →
        runSource fuel source (.fresh .unlimited journal) = some (result, m) →
          ∃ log, i.run fuel' = some (.ofRun (String.ofList m.sink.contents) log result) ∧
            ((Filter.choose i.logFilter options.verbosity).Silent →
              log = if treeOption ∈ i.arguments.takeWhile (· != separator) then treeText source
                else "")) ∧
    ((∀ source : String, content ≠ source.toUTF8) → ∀ fuel,
      i.run fuel = some ⟨1, "", errorLine
        ("failed to read " ++ options.source.name ++ ": " ++ ReadError.notText.description)⟩) := by
  refine ⟨?_, run_of_not_text hoptions hcontent⟩
  rintro source journal rfl
  have hrun := run_of_text hoptions hcontent
  constructor
  · intro fuel
    rw [hrun, isSome_executeText _ _ source journal]
  · intro fuel fuel' result m hle hends
    obtain ⟨log, hresult, hsilent⟩ := executeText_of_runSource (runSource_of_le hle hends)
      (Filter.choose i.logFilter options.verbosity) options.dumpTree
    refine ⟨log, (hrun fuel').trans hresult, fun h => ?_⟩
    rw [hsilent h]
    simp only [Options.dumpTree_iff hoptions]

/-- Division by zero after a print, in a file. The program is shown before its run, and the error after
it. -/
theorem run_agrees_of_failing_program :
    let source := "global g = 7 define main() \x7b println(g) g / 0 \x7d"
    let i : Invocation := ⟨["-v", "--dump-ast", "main.toys"], .empty,
      .ofFiles [("main.toys", source.toUTF8)], some "warn"⟩
    let options : Options := ⟨some "main.toys", true, 1⟩
    let shown := "global g = 7\ndefine main() \x7b println(g); g / 0 \x7d\n"
    Options.ofArguments i.arguments = .ok options ∧ i.read options.source = .ok source.toUTF8 ∧
      i.run 9 = some ⟨1, "7", shown ++ "error: division by zero\n"⟩ := by
  intro source i options shown
  have hoptions : Options.ofArguments i.arguments = .ok options := rfl
  have hcontent : i.read options.source = .ok source.toUTF8 := by
    with_unfolding_all rfl
  refine ⟨hoptions, hcontent, ?_⟩
  have hends : ((runSource 9 source (.fresh .unlimited .silent)).map fun (result, m) =>
      (result, m.sink.contents)) = some (.error (.eval .divisionByZero), ['7']) := by decide +kernel
  obtain ⟨⟨_, m⟩, hrun, heq⟩ := Option.map_eq_some_iff.mp hends
  obtain ⟨rfl, hprinted⟩ := Prod.mk.inj heq
  obtain ⟨log, hresult, hlog⟩ :=
    ((run_agrees hoptions hcontent).1 source .silent rfl).2 9 9 _ m (Nat.le_refl _) hrun
  have hsilent : (Filter.choose i.logFilter options.verbosity).Silent :=
    (Filter.choose_name .warn 1).symm ▸ Filter.silent_upTo_iff.mpr (Nat.le_refl _)
  have hshown : log = shown := (hlog hsilent).trans (by decide +kernel)
  rw [hresult, hprinted, hshown]
  decide +kernel

end Invocation

end CommandLine

end Scriptlet
