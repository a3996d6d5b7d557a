import Annealing.Command.Program
import Annealing.Proofs.Attempts

/-!
# Command lines of workers

A worker is told what to do with a file by words: the path of the file, the
kind of its instances, and whether to measure or which results to expect.
Read back, these words ask for just that, unless one of the paths looks like an
option. Then the option in front of it has no value, and the command line is
refused.
-/
namespace Annealing.Command

open Batch

variable {specs : List OptionSpec} {spec : OptionSpec} {argument : String}

/-! ## Options and their values -/

/-- The argument after an option that lacks its value is the value, or refused. -/
theorem readArguments_value (h : readArgument specs argument = .ok ([], some spec))
    (value : String) (rest : List String) : readArguments specs (argument :: value :: rest) =
      if isOptionLike value then .error (.missingValue spec.long)
      else (readArguments specs rest).map ((spec.long, some value) :: ·) := by
  rw [readArguments]
  · simp only [h]
    rfl
  · exact fun _ => List.cons_ne_nil _ _

theorem isOptionLike_word (choice : Solving.Choice) : isOptionLike choice.word = false := by
  cases choice <;> rfl

theorem ofWord?_word (choice : Solving.Choice) :
    Solving.Choice.ofWord? choice.word = some choice := by
  cases choice <;> rfl

theorem readPath?_eq {text : String} (h : text ≠ "") : readPath? text = some ⟨text⟩ :=
  if_neg (by simpa using h)

/-- The words behind the command that ask for a file to be solved. -/
def solveWords (file : String) (choice : Solving.Choice) (measuring : Bool)
    (check? : Option String) : List String :=
  "--filepath" :: file :: "--problem" :: choice.word ::
    ((if measuring then ["--measure"] else []) ++ (check?.toList.flatMap fun e => ["--test", e]))

/-- The options that these words give. -/
def solveGiven (file : String) (choice : Solving.Choice) (measuring : Bool)
    (check? : Option String) : Given :=
  ("filepath", some file) :: ("problem", some choice.word) ::
    ((if measuring then [("measure", none)] else []) ++
      check?.toList.map fun e => ("test", some e))

variable {file : String} {choice : Solving.Choice} {measuring : Bool} {check? : Option String}

theorem readArguments_filepath (rest : List String) :
    readArguments solveSpecs ("--filepath" :: file :: rest) =
      if isOptionLike file then .error (.missingValue "filepath")
      else (readArguments solveSpecs rest).map (("filepath", some file) :: ·) := by
  have h : readArgument solveSpecs "--filepath" =
      .ok ([], some { long := "filepath", short? := some 'f', value? := some .path }) := rfl
  exact readArguments_value h file rest

theorem readArguments_problem (rest : List String) :
    readArguments solveSpecs ("--problem" :: choice.word :: rest) =
      (readArguments solveSpecs rest).map (("problem", some choice.word) :: ·) := by
  have h : readArgument solveSpecs "--problem" =
      .ok ([], some { long := "problem", value? := some .choice }) := rfl
  rw [readArguments_value h, isOptionLike_word]
  rfl

theorem readArguments_measure (rest : List String) :
    readArguments solveSpecs ("--measure" :: rest) =
      (readArguments solveSpecs rest).map (("measure", none) :: ·) := by
  rw [readArguments]
  · rfl
  · exact fun h => absurd h (by decide)

theorem readArguments_test (e : String) :
    readArguments solveSpecs ["--test", e] =
      if isOptionLike e then .error (.missingValue "test") else .ok [("test", some e)] := by
  have h : readArgument solveSpecs "--test" =
      .ok ([], some { long := "test", short? := some 't', value? := some .path }) := rfl
  exact readArguments_value h e []

theorem readArguments_solveWords :
    readArguments solveSpecs (solveWords file choice measuring check?) =
      if isOptionLike file then .error (.missingValue "filepath")
      else if check?.any isOptionLike then .error (.missingValue "test")
      else .ok (solveGiven file choice measuring check?) := by
  rw [solveWords, readArguments_filepath, readArguments_problem]
  congr 1
  cases check? with
  | none =>
    cases measuring with
    | false => rfl
    | true => rfl
  | some e =>
    have htest := readArguments_test e
    have hany : (some e).any isOptionLike = isOptionLike e := rfl
    rw [hany]
    cases measuring with
    | false =>
      change ((readArguments solveSpecs ["--test", e]).map _).map _ = _
      rw [htest]
      split <;> rfl
    | true =>
      change ((readArguments solveSpecs ("--measure" :: ["--test", e])).map _).map _ = _
      rw [readArguments_measure, htest]
      split <;> rfl

/-- No option is given twice, and all values are of their kinds. -/
theorem solveGiven_wellFormed (hfile : file ≠ "") (choice : Solving.Choice) (measuring : Bool)
    (hcheck : ∀ e ∈ check?, e ≠ "") :
    repeated? (solveGiven file choice measuring check?) = none ∧
      badValue? solveSpecs (solveGiven file choice measuring check?) = none := by
  have hread := readPath?_eq hfile
  have hword := ofWord?_word choice
  cases check? with
  | none =>
    cases measuring <;>
      simp [solveGiven, repeated?, badValue?, findLong?, solveSpecs, ValueKind.accepts, hread,
        hword]
  | some e =>
    have hexpected := readPath?_eq (hcheck e rfl)
    cases measuring <;>
      simp [solveGiven, repeated?, badValue?, findLong?, solveSpecs, ValueKind.accepts, hread,
        hword, hexpected]

theorem ofGiven_solveGiven (hfile : file ≠ "") (hcheck : ∀ e ∈ check?, e ≠ "") :
    SolveRequest.ofGiven (solveGiven file choice measuring check?) =
      .ok ⟨⟨file⟩, { choice, measuring, check? := check?.map Path.mk }⟩ := by
  have hread := readPath?_eq hfile
  have hword := ofWord?_word choice
  cases check? with
  | none =>
    cases measuring <;>
      simp [solveGiven, SolveRequest.ofGiven, requiredValue, value?, hasFlag, bind, Except.bind,
        hread, hword]
  | some e =>
    have hexpected := readPath?_eq (hcheck e rfl)
    cases measuring <;>
      simp [solveGiven, SolveRequest.ofGiven, requiredValue, value?, hasFlag, bind, Except.bind,
        hread, hword, hexpected]

/-- The words of a worker are refused if a path among them looks like an option. Otherwise
they ask for what they say. -/
theorem parseRequest_solveWords (hfile : file ≠ "") (hcheck : ∀ e ∈ check?, e ≠ "") :
    parseRequest false ("solve" :: solveWords file choice measuring check?) =
      if isOptionLike file then .error (.missingValue "filepath")
      else if check?.any isOptionLike then .error (.missingValue "test")
      else .ok (.solve false ⟨⟨file⟩, { choice, measuring, check? := check?.map Path.mk }⟩) := by
  have hcommand : parseRequest false ("solve" :: solveWords file choice measuring check?) =
      (parseOptions solveSpecs (solveWords file choice measuring check?)).bind fun given =>
        if hasFlag given "help" then .ok .help
        else (SolveRequest.ofGiven given).bind fun r => .ok (.solve (hasFlag given "verbose") r) :=
    rfl
  rw [hcommand, parseOptions, readArguments_solveWords]
  split
  case isTrue => rfl
  case isFalse =>
    split
    case isTrue => rfl
    case isFalse =>
      obtain ⟨hrepeated, hbad⟩ := solveGiven_wellFormed hfile choice measuring hcheck
      simp only [Except.bind, hrepeated, hbad, ofGiven_solveGiven hfile hcheck]
      cases measuring <;> cases check? <;> rfl

end Annealing.Command

namespace Annealing.Batch

open Command

/-! ## Paths on a command line -/

theorem passedWord_eq_self_iff {word : String} : passedWord word = word ↔ hasNul word = false := by
  unfold passedWord
  cases h : hasNul word with
  | false => simp
  | true =>
    -- The word that stands for others has no NUL character itself.
    have hreplaced : hasNul "<string-with-nul>" = false := by decide
    simp only [if_true, Bool.true_eq_false, iff_false]
    rintro rfl
    rw [hreplaced] at h
    cases h

theorem passedWord_ne_empty {word : String} (h : word ≠ "") : passedWord word ≠ "" := by
  unfold passedWord
  split
  · decide
  · exact h

theorem fileName?_ne_empty {path : Path} {name : String} (h : path.fileName? = some name) :
    name ≠ "" := by
  have hmem : Component.name name ∈ path.components := by
    unfold Path.fileName? at h
    split at h
    case h_1 text hlast =>
      cases h
      exact List.mem_of_getLast? hlast
    case h_2 => cases h
  have hinner : Component.name name ∈ path.pieces.filterMap Path.componentOf? := by
    unfold Path.components at hmem
    split at hmem
    · simpa using hmem
    · split at hmem
      · simpa using hmem
      · exact hmem
  obtain ⟨piece, -, hpiece⟩ := List.mem_filterMap.mp hinner
  rintro rfl
  unfold Path.componentOf? at hpiece
  split at hpiece
  all_goals cases hpiece
  contradiction

theorem append_ne_empty_right {a b : String} (h : b ≠ "") : a ++ b ≠ "" := by
  simpa using fun _ => h

theorem expectedName_ne_empty {name : String} (h : name ≠ "") :
    Settings.expectedName name ≠ "" := by
  unfold Settings.expectedName
  split
  · exact append_ne_empty_right (by decide)
  · exact h

theorem join_ne_empty (directory : Path) {name : String} (h : name ≠ "") :
    (directory.join name).text ≠ "" := by
  unfold Path.join
  split
  · exact append_ne_empty_right h
  · exact append_ne_empty_right h

namespace Settings

variable {s : Settings} {tree : Tree} {file expected : Path}

theorem expectedPath?_ne_empty (h : s.expectedPath? tree file = some expected) :
    expected.text ≠ "" := by
  unfold expectedPath? at h
  split at h
  case h_2 => cases h
  case h_1 directory name hdirectory hname =>
    have hsame := join_ne_empty directory (expectedName_ne_empty (fileName?_ne_empty hname))
    simp only at h
    split at h
    · cases h
      exact hsame
    · obtain rfl := Option.some.inj h
      cases hdifficulty : Option.filter tree.exists? (file.difficulty?.map fun difficulty =>
          directory.join ("sat." ++ decimalText difficulty ++ ".sol.dat")) with
      | none => exact hsame
      | some path =>
        obtain ⟨hmap, -⟩ := Option.filter_eq_some_iff.mp hdifficulty
        obtain ⟨difficulty, -, rfl⟩ := Option.map_eq_some_iff.mp hmap
        exact join_ne_empty directory (append_ne_empty_right (by decide))

/-- The file with expected results that a worker is told about. -/
def passedPath? (s : Settings) (tree : Tree) (file : Path) : Option Path :=
  if s.measuring then none else s.expectedPath? tree file

/-- What a worker is to be asked for. -/
def request (s : Settings) (tree : Tree) (file : Path) : SolveRequest where
  file := file
  options :=
    { choice := s.choice, measuring := s.measuring, check? := s.passedPath? tree file,
      seed? := none }

theorem arguments_eq : s.arguments tree file = "solve" :: solveWords (passedWord file.text)
    s.choice s.measuring ((s.passedPath? tree file).map fun e => passedWord e.text) := by
  have hfixed : ∀ word ∈ ["solve", "--filepath", "--problem", "--measure", "--test"],
      passedWord word = word := by decide
  have hchoice : passedWord s.choice.word = s.choice.word := by cases s.choice <;> rfl
  unfold arguments words passedPath?
  cases s.measuring with
  | true => simp [solveWords, hchoice, hfixed]
  | false => cases s.expectedPath? tree file <;> simp [solveWords, hchoice, hfixed]

/-- The paths on the command line of a worker. -/
def passedPaths (s : Settings) (tree : Tree) (file : Path) : List Path :=
  file :: (s.passedPath? tree file).toList

theorem parseRequest_arguments (hfile : file.text ≠ "") :
    parseRequest false (s.arguments tree file) =
      if isOptionLike (passedWord file.text) then .error (.missingValue "filepath")
      else if (s.passedPath? tree file).any fun e => isOptionLike (passedWord e.text) then
        .error (.missingValue "test")
      else .ok (.solve false
        { file := ⟨passedWord file.text⟩
          options :=
            { choice := s.choice, measuring := s.measuring
              check? := (s.passedPath? tree file).map fun e => ⟨passedWord e.text⟩ } }) := by
  have hcheck : ∀ e ∈ (s.passedPath? tree file).map fun e => passedWord e.text, e ≠ "" := by
    intro word hword
    obtain ⟨e, he, rfl⟩ := Option.map_eq_some_iff.mp hword
    apply passedWord_ne_empty
    unfold passedPath? at he
    split at he
    · cases he
    · exact expectedPath?_ne_empty he
  rw [arguments_eq, parseRequest_solveWords (passedWord_ne_empty hfile) hcheck]
  simp only [Option.any_map, Option.map_map]
  rfl

theorem passed_of_parseRequest (hfile : file.text ≠ "")
    (h : parseRequest false (s.arguments tree file) = .ok (.solve false (s.request tree file))) :
    ∀ path ∈ s.passedPaths tree file,
      hasNul path.text = false ∧ isOptionLike path.text = false := by
  rw [parseRequest_arguments hfile] at h
  split at h
  case isTrue => cases h
  case isFalse hdash =>
    split at h
    case isTrue => cases h
    case isFalse hcheck =>
      simp only [Except.ok.injEq, Request.solve.injEq, true_and, request, SolveRequest.mk.injEq,
        Solving.Options.mk.injEq, and_true] at h
      obtain ⟨hsame, hsameCheck⟩ := h
      -- What is passed is the path itself, so there is no NUL character in it.
      have hpath : ∀ path : Path, Path.mk (passedWord path.text) = path →
          ¬ isOptionLike (passedWord path.text) = true →
          hasNul path.text = false ∧ isOptionLike path.text = false := by
        intro path hpassed hlike
        have hword : passedWord path.text = path.text := congrArg Path.text hpassed
        rw [hword, Bool.not_eq_true] at hlike
        exact ⟨passedWord_eq_self_iff.mp hword, hlike⟩
      intro path hmem
      rcases List.mem_cons.mp hmem with rfl | hmem
      · exact hpath _ hsame hdash
      · rw [Option.mem_toList] at hmem
        rw [hmem] at hsameCheck hcheck
        exact hpath path (Option.some.inj hsameCheck) (by simpa using hcheck)

theorem parseRequest_of_passed (hfile : file.text ≠ "")
    (h : ∀ path ∈ s.passedPaths tree file,
      hasNul path.text = false ∧ isOptionLike path.text = false) :
    parseRequest false (s.arguments tree file) = .ok (.solve false (s.request tree file)) := by
  obtain ⟨⟨hnul, hlike⟩, hcheck⟩ := List.forall_mem_cons.mp h
  have hword := passedWord_eq_self_iff.mpr hnul
  rw [parseRequest_arguments hfile, hword, request]
  cases hexpected : s.passedPath? tree file with
  | none => simp [hlike]
  | some e =>
    rw [hexpected] at hcheck
    obtain ⟨hnul', hlike'⟩ := hcheck e (by simp)
    simp [hlike, passedWord_eq_self_iff.mpr hnul', hlike']

theorem exists_parseRequest_error (hfile : file.text ≠ "") {path : Path}
    (hmem : path ∈ s.passedPaths tree file) (hnul : hasNul path.text = false)
    (hlike : isOptionLike path.text = true) :
    ∃ e, parseRequest false (s.arguments tree file) = .error e := by
  rw [← passedWord_eq_self_iff.mpr hnul] at hlike
  rw [parseRequest_arguments hfile]
  rcases List.mem_cons.mp hmem with rfl | hmem
  · exact ⟨_, if_pos hlike⟩
  · have hany :
        ((s.passedPath? tree file).any fun e => isOptionLike (passedWord e.text)) = true := by
      rw [Option.mem_toList.mp hmem]
      exact hlike
    rw [if_pos hany]
    split
    · exact ⟨_, rfl⟩
    · exact ⟨_, rfl⟩

/-- The command line of a worker asks for what the batch means exactly if the paths on it
have no NUL character and do not look like options. With one that looks like an option, the
worker does nothing and fails. -/
theorem arguments_understood_iff (s : Settings) (tree : Tree) (file : Path)
    (hfile : file.text ≠ "") :
    (parseRequest false (s.arguments tree file) = .ok (.solve false (s.request tree file)) ↔
      ∀ path ∈ s.passedPaths tree file,
        hasNul path.text = false ∧ isOptionLike path.text = false) ∧
    ∀ path ∈ s.passedPaths tree file, hasNul path.text = false → isOptionLike path.text = true →
      ∀ e, worker e (s.arguments tree file) = ⟨2, ""⟩ := by
  refine ⟨⟨passed_of_parseRequest hfile, parseRequest_of_passed hfile⟩, ?_⟩
  intro path hmem hnul hlike e
  obtain ⟨error, herror⟩ := exists_parseRequest_error hfile hmem hnul hlike
  simp only [worker, herror]

/-- Files in a directory, checked against another one. -/
def plainPaths : Settings :=
  { directory := ⟨"inst"⟩, jobs := 1, checkDirectory? := some ⟨"sol"⟩ }

/-- Files in a directory whose name begins with a dash. -/
def dashedPaths : Settings := { directory := ⟨"-d"⟩, jobs := 1 }

theorem arguments_understood_iff_dashedPaths :
    parseRequest false (plainPaths.arguments ⟨[], []⟩ ⟨"inst/knap_1.inst.dat"⟩) =
      .ok (.solve false
        { file := ⟨"inst/knap_1.inst.dat"⟩
          options := { check? := some ⟨"sol/knap_1.sol.dat"⟩ } }) ∧
    parseRequest false (dashedPaths.arguments ⟨[], []⟩ ⟨"-d/knap_1.inst.dat"⟩) ≠
      .ok (.solve false (dashedPaths.request ⟨[], []⟩ ⟨"-d/knap_1.inst.dat"⟩)) ∧
    ∀ e, worker e (dashedPaths.arguments ⟨[], []⟩ ⟨"-d/knap_1.inst.dat"⟩) = ⟨2, ""⟩ := by
  obtain ⟨hplain, -⟩ := arguments_understood_iff plainPaths ⟨[], []⟩ ⟨"inst/knap_1.inst.dat"⟩
    (by decide)
  obtain ⟨hdashed, hrefused⟩ := arguments_understood_iff dashedPaths ⟨[], []⟩
    ⟨"-d/knap_1.inst.dat"⟩ (by decide)
  refine ⟨(hplain.mpr (by decide)).trans (by rfl), ?_, ?_⟩
  · rw [ne_eq, hdashed]
    decide
  · exact hrefused ⟨"-d/knap_1.inst.dat"⟩ List.mem_cons_self (by decide) (by decide)

end Settings
end Annealing.Batch
