import Mathlib.Data.List.Basic
import Mathlib.Data.Nat.Notation
import Mathlib.Tactic.SplitIfs

/-!
# The command options

`fuzzer/src/command.rs`: the command lines of the target and of its tracking
build, and the files they share with the fuzzer. `specify` makes them private
to one thread, `sanopt` makes the copy for the sanitized binary, and an executor
writes the file it opened and starts the target on its arguments.
-/

set_option autoImplicit false

namespace Parmesan.Command

def TMP_DIR : String := "tmp"
def INPUT_FILE : String := "cur_input"
def FORKSRV_SOCKET_FILE : String := "forksrv_socket"
def TRACK_FILE : String := "track"

inductive InstrumentationMode where
  | llvm
  | pin
  deriving DecidableEq, Repr

inductive SearchMethod where
  | gd
  | random
  | cbh
  | mb
  deriving DecidableEq, Repr

structure CommandOpt where
  mode : InstrumentationMode
  id : ℕ
  main : String × List String
  track : String × List String
  tmpDir : String
  outFile : String
  forksrvSocketPath : String
  trackPath : String
  isStdin : Bool
  searchMethod : SearchMethod
  memLimit : ℕ
  timeLimit : ℕ
  isRaw : Bool
  usesAsan : Bool
  ldLibrary : String
  enableAfl : Bool
  enableExploitation : Bool
  directedTargetsFile : String
  sanoptBin : Option String
  directedOnly : Bool
  deriving DecidableEq, Repr

/-- What the process finds outside: the working directory, the trimmed output of
`llvm-config --libdir`, whether a binary links ASAN, and two variables. -/
structure Environment where
  currentDir : String
  libDir : String
  checkAsan : String → Bool
  binDir : Option String
  pinRoot : Option String

structure Options where
  mode : String
  trackTarget : String
  pargs : List String
  outDir : String
  searchMethod : String
  memLimit : ℕ
  timeLimit : ℕ
  enableAfl : Bool
  enableExploitation : Bool
  directedTargetsFile : String
  sanoptTarget : Option String
  directedOnly : Bool
  deriving DecidableEq, Repr

def modeFrom (mode : String) : Option InstrumentationMode :=
  if mode = "llvm" then some .llvm else if mode = "pin" then some .pin else none

def parseSearchMethod (m : String) : SearchMethod :=
  if m = "gd" then .gd
  else if m = "random" then .random
  else if m = "cbh" then .cbh
  else if m = "mb" then .mb
  else .gd

def isAbsolute (path : String) : Bool := path.toList.head? = some '/'

def join (base path : String) : String :=
  if isAbsolute path then path
  else if base = "" ∨ base.toList.getLast? = some '/' then base ++ path
  else base ++ "/" ++ path

def makeAbsoluteStr (env : Environment) (path : String) : String :=
  if isAbsolute path then path else join env.currentDir path

/-- The tracker's command line; Pin takes the target as an argument. -/
def trackCommand (env : Environment) (mode : InstrumentationMode) (trackTarget : String)
    (mainArgs : List String) : Option (String × List String) :=
  match mode with
  | .pin => do
    let projectBinDir ← env.binDir
    let pinRoot ← env.pinRoot
    let pinTool := join (join projectBinDir "lib") "pin_track.so"
    some (pinRoot ++ "/" ++ "pin", ["-t", pinTool, "--", trackTarget] ++ mainArgs)
  | .llvm => some (makeAbsoluteStr env trackTarget, mainArgs)

/-- `CommandOpt::new`; `none` is a panic. -/
def new (env : Environment) (o : Options) : Option CommandOpt := do
  let mode ← modeFrom o.mode
  let tmpDir := join o.outDir TMP_DIR
  if o.trackTarget = "-" then none else
  let program ← o.pargs.head?
  let mainBin := makeAbsoluteStr env program
  let mainArgs := o.pargs.tail
  let usesAsan := env.checkAsan mainBin
  let track ← trackCommand env mode o.trackTarget mainArgs
  some
    { mode
      id := 0
      main := (mainBin, mainArgs)
      track
      tmpDir
      outFile := join tmpDir INPUT_FILE
      forksrvSocketPath := join tmpDir FORKSRV_SOCKET_FILE
      trackPath := join tmpDir TRACK_FILE
      isStdin := !o.pargs.contains "@@"
      searchMethod := parseSearchMethod o.searchMethod
      memLimit := if usesAsan ∧ o.memLimit ≠ 0 then 0 else o.memLimit
      timeLimit := o.timeLimit
      isRaw := true
      usesAsan
      ldLibrary := "$LD_LIBRARY_PATH:" ++ env.libDir
      enableAfl := o.enableAfl
      enableExploitation := o.enableExploitation
      directedTargetsFile := o.directedTargetsFile
      sanoptBin := o.sanoptTarget
      directedOnly := o.directedOnly }

def replacePlaceholder (newFile : String) (args : List String) : List String :=
  args.map fun arg => if arg = "@@" then newFile else arg

def specify (c : CommandOpt) (id : ℕ) : CommandOpt :=
  let newFile := c.outFile ++ "_" ++ toString id
  { c with
    main := (c.main.1, if c.isStdin then c.main.2 else replacePlaceholder newFile c.main.2)
    track := (c.track.1, if c.isStdin then c.track.2 else replacePlaceholder newFile c.track.2)
    id := id
    outFile := newFile
    forksrvSocketPath := c.forksrvSocketPath ++ "_" ++ toString id
    trackPath := c.trackPath ++ "_" ++ toString id
    isRaw := false }

def sanopt (c : CommandOpt) : CommandOpt :=
  { c with
    main := (c.sanoptBin.getD c.main.1, c.main.2)
    outFile := c.outFile ++ "_" ++ "sanopt"
    forksrvSocketPath := c.forksrvSocketPath ++ "_" ++ "sanopt"
    trackPath := c.trackPath ++ "_" ++ "sanopt"
    usesAsan := true
    memLimit := 0 }

structure Forksrv where
  socketPath : String
  target : String × List String
  isStdin : Bool
  usesAsan : Bool
  timeLimit : ℕ
  memLimit : ℕ
  deriving DecidableEq, Repr

/-- The part of `Executor` that `Executor::new` takes from the options; `fd` is
the file its `PipeFd` writes. -/
structure Executor where
  cmd : CommandOpt
  fd : String
  forksrv : Forksrv
  deriving DecidableEq, Repr

def newExecutor (cmd : CommandOpt) : Executor where
  cmd := cmd
  fd := cmd.outFile
  forksrv :=
    { socketPath := cmd.forksrvSocketPath
      target := cmd.main
      isStdin := cmd.isStdin
      usesAsan := cmd.usesAsan
      timeLimit := cmd.timeLimit
      memLimit := cmd.memLimit }

/-- The options `fuzz_loop` builds its two executors from. -/
def command (raw : CommandOpt) (id : ℕ) (san : Bool) : CommandOpt :=
  if san then sanopt (specify raw id) else specify raw id

def trackOffset : InstrumentationMode → ℕ
  | .llvm => 0
  | .pin => 4

/-- Every placeholder of the target's arguments has become the file the
executor writes, for the target and for the tracker. -/
def Fed (pargs : List String) (e : Executor) : Prop :=
  e.cmd.isStdin = false → ∀ i : ℕ, pargs.tail[i]? = some "@@" →
    e.cmd.main.2[i]? = some e.cmd.outFile ∧
    e.cmd.track.2[trackOffset e.cmd.mode+i]? = some e.cmd.outFile ∧
    e.forksrv.target.2[i]? = some e.fd

structure Apart (c c' : CommandOpt) : Prop where
  outFile : c.outFile ≠ c'.outFile
  socket : c.forksrvSocketPath ≠ c'.forksrvSocketPath
  track : c.trackPath ≠ c'.trackPath

def suffix (id : ℕ) (san : Bool) : String :=
  "_" ++ toString id ++ if san then "_sanopt" else ""

theorem suffix_last (id : ℕ) (san : Bool) :
    ∃ c, (suffix id san).toList.getLast? = some c ∧ c.isDigit = !san := by
  cases san with
  | true =>
    refine ⟨'t', ?_, by decide⟩
    rw [suffix, if_pos rfl, String.toList_append, List.getLast?_append]
    have hlast : "_sanopt".toList.getLast? = some 't' := by decide
    rw [hlast]
    rfl
  | false =>
    have hne : (toString id).toList ≠ [] := by
      rw [Nat.toString_eq_repr, Nat.toList_repr]
      exact Nat.toDigits_ne_nil
    refine ⟨(toString id).toList.getLast hne, ?_, ?_⟩
    · rw [suffix, if_neg (by decide), String.append_empty, String.toList_append,
        List.getLast?_append, List.getLast?_eq_getLast_of_ne_nil hne]
      rfl
    · have hdigits : (toString id).toList = Nat.toDigits 10 id := Nat.toList_repr
      have hmem : (toString id).toList.getLast hne ∈ Nat.toDigits 10 id := by
        rw [← hdigits]
        exact List.getLast_mem hne
      exact Nat.isDigit_of_mem_toDigits (by decide) (by decide) hmem

theorem suffix_inj {id id' : ℕ} {san san' : Bool} (h : suffix id san = suffix id' san') :
    id = id' ∧ san = san' := by
  obtain ⟨c, hc, hdigit⟩ := suffix_last id san
  obtain ⟨c', hc', hdigit'⟩ := suffix_last id' san'
  rw [h, hc'] at hc
  obtain rfl := Option.some.inj hc
  have hsan : san = san' := by
    rw [hdigit] at hdigit'
    exact Bool.not_inj hdigit'
  subst hsan
  rw [suffix, suffix, String.append_left_inj, String.append_right_inj] at h
  have hdigits : Nat.toDigits 10 id = Nat.toDigits 10 id' := by
    rw [← Nat.toList_repr, ← Nat.toList_repr]
    exact congrArg String.toList h
  have hid : id = id' := by
    rw [← Nat.ofDigitChars_ten_toDigits (n := id), hdigits, Nat.ofDigitChars_ten_toDigits]
  exact ⟨hid, rfl⟩

theorem command_paths (raw : CommandOpt) (id : ℕ) (san : Bool) :
    (command raw id san).outFile = raw.outFile ++ suffix id san ∧
    (command raw id san).forksrvSocketPath = raw.forksrvSocketPath ++ suffix id san ∧
    (command raw id san).trackPath = raw.trackPath ++ suffix id san := by
  cases san <;> simp [command, specify, sanopt, suffix, String.append_assoc]

theorem command_apart (raw : CommandOpt) {id id' : ℕ} {san san' : Bool}
    (h : (id, san) ≠ (id', san')) : Apart (command raw id san) (command raw id' san') := by
  obtain ⟨hout, hsocket, htrack⟩ := command_paths raw id san
  obtain ⟨hout', hsocket', htrack'⟩ := command_paths raw id' san'
  have hne : suffix id san ≠ suffix id' san' := by
    intro hs
    obtain ⟨rfl, rfl⟩ := suffix_inj hs
    exact h rfl
  constructor
  · rw [hout, hout', Ne, String.append_right_inj]
    exact hne
  · rw [hsocket, hsocket', Ne, String.append_right_inj]
    exact hne
  · rw [htrack, htrack', Ne, String.append_right_inj]
    exact hne

theorem replace_placeholder_get {newFile : String} {args : List String} {i : ℕ}
    (h : args[i]? = some "@@") : (replacePlaceholder newFile args)[i]? = some newFile := by
  rw [replacePlaceholder, List.getElem?_map, h]
  rfl

theorem command_args (raw : CommandOpt) (id : ℕ) (san : Bool) (hs : raw.isStdin = false) :
    (command raw id san).main.2 =
      replacePlaceholder (raw.outFile ++ suffix id false) raw.main.2 ∧
    (command raw id san).track.2 =
      replacePlaceholder (raw.outFile ++ suffix id false) raw.track.2 := by
  cases san <;> simp [command, specify, sanopt, suffix, hs, String.append_assoc]

theorem command_same (raw : CommandOpt) (id : ℕ) (san : Bool) :
    (command raw id san).isStdin = raw.isStdin ∧ (command raw id san).mode = raw.mode := by
  cases san <;> exact ⟨rfl, rfl⟩

theorem track_command_args {env : Environment} {mode : InstrumentationMode} {trackTarget : String}
    {mainArgs : List String} {track : String × List String}
    (h : trackCommand env mode trackTarget mainArgs = some track) (i : ℕ) :
    track.2[trackOffset mode+i]? = mainArgs[i]? := by
  cases mode with
  | llvm =>
    obtain rfl := Option.some.inj h
    rw [trackOffset, Nat.zero_add]
  | pin =>
    simp only [trackCommand, bind, Option.bind_eq_some_iff, Option.some.injEq] at h
    obtain ⟨binDir, -, pinRoot, -, rfl⟩ := h
    rw [trackOffset, Nat.add_comm]
    rfl

theorem new_spec {env : Environment} {o : Options} {raw : CommandOpt} (h : new env o = some raw) :
    raw.main.2 = o.pargs.tail ∧ raw.isStdin = !o.pargs.contains "@@" ∧
      ∀ i : ℕ, raw.track.2[trackOffset raw.mode+i]? = o.pargs.tail[i]? := by
  simp only [new, bind, Option.bind_eq_some_iff] at h
  obtain ⟨mode, -, h⟩ := h
  split_ifs at h
  simp only [Option.bind_eq_some_iff, Option.some.injEq] at h
  obtain ⟨program, -, track, htrack, rfl⟩ := h
  exact ⟨rfl, rfl, track_command_args htrack⟩

theorem specify_fed {env : Environment} {o : Options} {raw : CommandOpt}
    (h : new env o = some raw) (id : ℕ) : Fed o.pargs (newExecutor (command raw id false)) := by
  obtain ⟨hmain, -, htrack⟩ := new_spec h
  intro hs i hi
  simp only [newExecutor, command_same] at hs ⊢
  obtain ⟨hargs, htargs⟩ := command_args raw id false hs
  rw [hargs, htargs, (command_paths raw id false).1, hmain]
  refine ⟨replace_placeholder_get hi, replace_placeholder_get ?_, replace_placeholder_get hi⟩
  rw [htrack i]
  exact hi

/-- The file name gets longer and the arguments do not. -/
theorem sanopt_not_fed {env : Environment} {o : Options} {raw : CommandOpt}
    (h : new env o = some raw) (id : ℕ) (hp : "@@" ∈ o.pargs.tail) :
    ¬ Fed o.pargs (newExecutor (command raw id true)) := by
  intro hfed
  obtain ⟨hmain, hstdin, -⟩ := new_spec h
  have hs : raw.isStdin = false := by
    rw [hstdin, List.contains_iff_mem.mpr (List.mem_of_mem_tail hp)]
    rfl
  obtain ⟨i, hi⟩ := List.mem_iff_getElem?.mp hp
  have hout := (hfed (by simpa [newExecutor, command_same] using hs) i hi).1
  simp only [newExecutor] at hout
  rw [(command_args raw id true hs).1, (command_paths raw id true).1, hmain,
    replace_placeholder_get hi, Option.some.injEq, String.append_right_inj] at hout
  cases (suffix_inj hout).2

/-- Both command lines of an executor name the file it writes unless `sanopt`
renamed that file after `specify` had filled a placeholder in; the paths of
different threads, and of the two executors of one thread, always differ. -/
theorem command_files_iff (env : Environment) (o : Options) (raw : CommandOpt)
    (h : new env o = some raw) (id : ℕ) (san : Bool) :
    (Fed o.pargs (newExecutor (command raw id san)) ∧
      ∀ id' san', (id, san) ≠ (id', san') →
        Apart (command raw id san) (command raw id' san')) ↔
    ¬ (san = true ∧ "@@" ∈ o.pargs.tail) := by
  constructor
  · rintro ⟨hfed, -⟩ ⟨rfl, hp⟩
    exact sanopt_not_fed h id hp hfed
  · intro hp
    refine ⟨?_, fun id' san' hne => command_apart raw hne⟩
    cases san with
    | false => exact specify_fed h id
    | true =>
      intro _ i hi
      exact absurd ⟨rfl, List.mem_of_getElem? hi⟩ hp

def plainEnvironment : Environment where
  currentDir := "/work"
  libDir := "/usr/lib/llvm/lib"
  checkAsan := fun _ => false
  binDir := none
  pinRoot := none

def fileTarget : Options where
  mode := "llvm"
  trackTarget := "prog.track"
  pargs := ["prog", "-x", "@@"]
  outDir := "out"
  searchMethod := "gd"
  memLimit := 200
  timeLimit := 1
  enableAfl := true
  enableExploitation := true
  directedTargetsFile := "targets.json"
  sanoptTarget := some "prog.san"
  directedOnly := false

def fileCommand : CommandOpt where
  mode := .llvm
  id := 0
  main := ("/work/prog", ["-x", "@@"])
  track := ("/work/prog.track", ["-x", "@@"])
  tmpDir := "out/tmp"
  outFile := "out/tmp/cur_input"
  forksrvSocketPath := "out/tmp/forksrv_socket"
  trackPath := "out/tmp/track"
  isStdin := false
  searchMethod := .gd
  memLimit := 200
  timeLimit := 1
  isRaw := true
  usesAsan := false
  ldLibrary := "$LD_LIBRARY_PATH:/usr/lib/llvm/lib"
  enableAfl := true
  enableExploitation := true
  directedTargetsFile := "targets.json"
  sanoptBin := some "prog.san"
  directedOnly := false

theorem new_file_command : new plainEnvironment fileTarget = some fileCommand := by decide

theorem command_files_iff_thread : new plainEnvironment fileTarget = some fileCommand ∧
    Fed fileTarget.pargs (newExecutor (command fileCommand 1 false)) := by
  refine ⟨new_file_command, ?_⟩
  have hnone : ¬ (false = true ∧ "@@" ∈ fileTarget.pargs.tail) := by decide
  exact ((command_files_iff plainEnvironment fileTarget fileCommand new_file_command 1 false).mpr
    hnone).1

/-- The sanitized executor of the first thread writes `out/tmp/cur_input_1_sanopt`
and starts the target on `out/tmp/cur_input_1`. -/
theorem sanopt_reads_other_file : new plainEnvironment fileTarget = some fileCommand ∧
    (newExecutor (command fileCommand 1 true)).cmd.isStdin = false ∧
    fileTarget.pargs.tail[1]? = some "@@" ∧
    (newExecutor (command fileCommand 1 true)).forksrv.target =
      ("prog.san", ["-x", "out/tmp/cur_input_1"]) ∧
    (newExecutor (command fileCommand 1 true)).fd = "out/tmp/cur_input_1_sanopt" ∧
    ¬ Fed fileTarget.pargs (newExecutor (command fileCommand 1 true)) := by
  refine ⟨new_file_command, by decide, by decide, by decide, by decide, ?_⟩
  exact sanopt_not_fed new_file_command 1 (by decide)

end Parmesan.Command
